import Atomspace.Proofs.Conduct
import Atomspace.Proofs.Equivariance
import Atomspace.Proofs.Ranking
import Atomspace.Proofs.RoundTrip
import Atomspace.Proofs.Utilities
/-!
# Asking for utilities

To ask for a utility reads the space: what is known stays, but the counter of renamings goes on, so that the
next one to ask meets stored variables under later numbers. To have later numbers is to have other names
(`Atom.shift`), and spaces that came of one by reading answer under these as that one does
(`Space.companions_drifted`). So a utility is the same before and after other utilities were asked for
(`Evaluator.utility_reread`), as long as no name is spelled like one that renaming has yet to come to.
-/

namespace Atomspace

namespace Atom

/-! ## Later numbers -/

/-- The name is one that renaming may still come to when its next number is `k`. -/
def IsFresh (k : Nat) (x : String) : Prop :=
  ∃ y n, k ≤ n ∧ x = numbered y n

/-- Moves all numbers from `k` on up by `d`. -/
noncomputable def shift (k d : Nat) : String → String :=
  Function.extend (fun p : String × Nat => numbered p.1 (k + p.2)) (fun p => numbered p.1 (k + p.2 + d)) id

variable {k d n : Nat} {x : String}

theorem not_isFresh_of_unnumbered (h : '#' ∉ x.toList) : ¬ IsFresh k x := by
  rintro ⟨y, n, -, rfl⟩
  exact h (mem_toList_numbered y n)

theorem shift_numbered (h : k ≤ n) (x : String) (d : Nat) : shift k d (numbered x n) = numbered x (n + d) := by
  obtain ⟨j, rfl⟩ := Nat.exists_eq_add_of_le h
  have hinj : Function.Injective fun p : String × Nat => numbered p.1 (k + p.2) := by
    intro p q e
    obtain ⟨hname, hnumber⟩ := numbered_eq_iff.1 e
    exact Prod.ext hname (Nat.add_left_cancel hnumber)
  exact hinj.extend_apply _ id (x, j)

theorem shift_of_not_isFresh (h : ¬ IsFresh k x) : shift k d x = x := by
  refine Function.extend_apply' _ id x ?_
  rintro ⟨⟨y, j⟩, rfl⟩
  exact h ⟨y, k + j, Nat.le_add_right k j, rfl⟩

theorem shift_injective (k d : Nat) : Function.Injective (shift k d) := by
  have hmixed {x y : String} (hx : IsFresh k x) (hy : ¬ IsFresh k y) : shift k d x ≠ shift k d y := by
    obtain ⟨z, n, hn, rfl⟩ := hx
    rw [shift_numbered hn, shift_of_not_isFresh hy]
    rintro rfl
    exact hy ⟨z, n + d, Nat.le_add_right_of_le hn, rfl⟩
  intro x y e
  by_cases hx : IsFresh k x <;> by_cases hy : IsFresh k y
  · obtain ⟨v, m, hm, rfl⟩ := hx
    obtain ⟨w, n, hn, rfl⟩ := hy
    rw [shift_numbered hm, shift_numbered hn, numbered_eq_iff] at e
    rw [e.1, Nat.add_right_cancel e.2]
  · exact absurd e (hmixed hx hy)
  · exact absurd e.symm (hmixed hy hx)
  · rwa [shift_of_not_isFresh hx, shift_of_not_isFresh hy] at e

variable {ν : Type}

/-- A copy of a later number is the copy with its numbers moved. -/
theorem mapNames_rename {a : Atom ν} (hn : k ≤ n) (ha : ∀ x ∈ a.listNames, ¬ IsFresh k x) (d : Nat) :
    (a.rename n).mapNames (shift k d) = a.rename (n + d) := by
  induction a using induct with
  | var x => rw [rename_var, rename_var, mapNames_var, shift_numbered hn]
  | expr l ih =>
    rw [listNames_expr] at ha
    rw [rename_expr, rename_expr, mapNames_expr, List.map_map, expr.injEq]
    exact List.map_congr_left fun a hl => ih a hl fun x hx => ha x (List.mem_flatMap.2 ⟨a, hl, hx⟩)
  | constant a hc =>
    have hsame (m : Nat) : a.rename m = a := bind_constant hc _
    rw [hsame, hsame]
    refine mapNames_eq_self fun x hx => shift_of_not_isFresh (ha x ?_)
    cases a with
    | var | expr => cases hc
    | list l => exact hx
    | _ => cases hx

variable [Scalar ν]

/-- A set of atoms that has all that comes up when utilities are asked for, whatever numbers names have, and
in which keys tell atoms apart. -/
structure Domain (D : Set (Atom ν)) : Prop where
  ample : Ample D
  sealed : Native.Sealed D
  key_inj : Set.InjOn key D
  shifted {a : Atom ν} (k d : Nat) : a ∈ D → a.mapNames (shift k d) ∈ D
  typed {head : Atom ν} {name : String} : head ∈ D → Evaluator.declaredName? head = some name →
    Evaluator.typePattern name ∈ D
  asked {action : Atom ν} : action ∈ D → Evaluator.utilityPattern action ∈ D

theorem Domain.naming {D : Set (Atom ν)} (hD : Domain D) (k d : Nat) : Naming D (shift k d) where
  ample := ⟨D, hD.ample, subset_rfl⟩
  faithful := hD.ample.faithful
  expr := hD.ample.expr
  equals := hD.ample.equals
  result := hD.ample.internal _ (by decide)
  result_eq := shift_of_not_isFresh (not_isFresh_of_unnumbered (by decide))
  inj _ _ _ _ h := shift_injective k d h
  key_iff {a b} ha hb := by
    constructor
    · intro h
      have hmapped := hD.key_inj (hD.shifted k d ha) (hD.shifted k d hb) h
      rw [mapNames_inj (shift_injective k d).injOn (fun _ _ => Set.mem_univ _) (fun _ _ => Set.mem_univ _) hmapped]
    · intro h
      rw [hD.key_inj ha hb h]

end Atom

variable {ν : Type} [Scalar ν]

namespace Space

open Atom (IsFresh shift)
open Evaluator (Companions Sides sides? rulePattern typePattern arrowArity?)

/-! ## Spaces that were read -/

/-- What reading makes of a space: the stored atoms also keep their order. -/
structure Reread (s t : Space ν) : Prop extends Read s t where
  keys : t.slots.keys = s.slots.keys

variable {s t u : Space ν}

omit [Scalar ν] in
theorem Reread.refl (s : Space ν) : Reread s s :=
  ⟨.refl s, rfl⟩

omit [Scalar ν] in
theorem Reread.trans (h : Reread s t) (h' : Reread t u) : Reread s u :=
  ⟨h.toRead.trans h'.toRead, h'.keys.trans h.keys⟩

theorem reread_touch (s : Space ν) (key : String) (amount : ν) : Reread s (s.touch key amount) :=
  ⟨s.read_touch key amount, Table.keys_modify ..⟩

omit [Scalar ν] in
theorem reread_renamed (s : Space ν) : Reread s { s with renamings := s.renamings + 1 } :=
  ⟨s.read_renamed, rfl⟩

omit [Scalar ν] in
theorem reread_refresh (s : Space ν) (a : Atom ν) : Reread s (s.refresh a).2 := by
  unfold refresh
  split
  · exact s.reread_renamed
  · exact .refl s

theorem reread_query (s : Space ν) (pattern : Atom ν) : Reread s (s.query pattern).2 :=
  examineAll_of_touch (P := Reread s) (fun t h => h.trans t.reread_renamed)
    (fun t key amount h => h.trans (t.reread_touch key amount)) pattern _ (.refl s)

theorem Reread.candidates (h : Reread s t) (pattern : Atom ν) : t.candidates pattern = s.candidates pattern := by
  have hcontains (key : String) : t.contains key = s.contains key := by
    rw [contains_eq, contains_eq, h.revalued.atom?]
  unfold Space.candidates
  simp only [h.keys, bucket_of_read h.toRead, hcontains]

/-! ## Two spaces of one origin -/

/-- The spaces came of one by reading, and the second has given out more numbers. -/
structure Drifted (origin : Space ν) (d : Nat) (s t : Space ν) : Prop where
  left : Reread origin s
  right : Reread origin t
  renamings : t.renamings = s.renamings + d

/-- The space holds atoms of the set, and no name that shows in it is one that renaming may still come to. -/
structure Calm (D : Set (Atom ν)) (s : Space ν) : Prop where
  filed : s.Filed
  within : s.Within D
  unseen : ∀ x, s.Shows x → ¬ IsFresh s.renamings x

variable {D : Set (Atom ν)} {origin : Space ν} (hD : Atom.Domain D) (ho : origin.Calm D)
include hD ho

theorem mirroring_drifted (d : Nat) : Mirroring D (shift origin.renamings d) (Drifted origin d) where
  fact? h key := (h.right.fact? key).trans (h.left.fact? key).symm
  config h := h.right.config.trans h.left.config.symm
  candidates {s t p} h hp := by
    have hshows (x : String) (hx : origin.Shows x ∨ origin.Shows (shift origin.renamings d x)) :
        shift origin.renamings d x = x := by
      rcases hx with hx | hx
      · exact Atom.shift_of_not_isFresh (ho.unseen x hx)
      · exact Atom.shift_injective _ _ (Atom.shift_of_not_isFresh (ho.unseen _ hx))
    rw [h.right.candidates, h.left.candidates]
    refine candidates_mapNames hD.ample.faithful ?_ ?_ hp
    · exact fun head hhead => bucket_mapNames hD.key_inj ho.filed ho.within hshows hD.ample.faithful hhead
        (hD.shifted _ _ hhead)
    · exact fun l hl => list_mapNames hD.key_inj ho.filed ho.within hshows hl (hD.shifted _ _ hl)
  copy {s t key a} h ha := by
    rw [h.left.revalued.atom?] at ha
    refine ⟨hD.ample.rename (ho.within key a ha) _, ?_⟩
    rw [h.renamings]
    exact Atom.mapNames_rename h.left.renamings (fun x hx => ho.unseen x ⟨key, a, ha, .inl hx⟩) d
  refresh {s t} a h := by
    refine ⟨h.left.trans (s.reread_refresh a), h.right.trans (t.reread_refresh a), ?_⟩
    rw [renamings_refresh, renamings_refresh, h.renamings]
    omega
  touch {s t} key amount h :=
    ⟨h.left.trans (s.reread_touch key amount), h.right.trans (t.reread_touch key amount), h.renamings⟩

end Space

namespace Evaluator

open Atom (internalNames shift)

/-! ## Names of the interpreter -/

section
variable {D : Set (Atom ν)} {f : String → String} (hf : Atom.Naming D f) (hD : Atom.Ample D)
  (hfixed : ∀ x ∈ internalNames, f x = x)
include hf hD hfixed

theorem resolve?_internal {m : Match ν} (hm : m.bindings.Scoped D) {x : String} (hx : x ∈ internalNames) :
    (m.mapNames f).bindings.resolve? x = (m.bindings.resolve? x).map (Atom.mapNames f) := by
  have hmapped := Bindings.resolve?_mapNames hf.inj hf.faithful hm (hD.internal x hx)
  rwa [hfixed x hx] at hmapped

theorem sides_mapNames {m : Match ν} (hm : m.bindings.Scoped D) : Sides D f m (m.mapNames f) := by
  refine ⟨rfl, ?_, fun p hp => ?_⟩
  · unfold sides?
    rw [resolve?_internal hf hD hfixed hm (by decide), resolve?_internal hf hD hfixed hm (by decide)]
    cases m.bindings.resolve? "__pattern" <;> cases m.bindings.resolve? "__template" <;> rfl
  · obtain ⟨left, hleft, hrest⟩ := Option.bind_eq_some_iff.1 hp
    obtain ⟨template, htemplate, ⟨⟩⟩ := Option.bind_eq_some_iff.1 hrest
    exact ⟨hm.resolve?_mem hf.faithful hleft, hm.resolve?_mem hf.faithful htemplate⟩

theorem arrowArity?_mapNames {m : Match ν} (hm : m.bindings.Scoped D) :
    arrowArity? (m.mapNames f) = arrowArity? m := by
  unfold arrowArity?
  rw [resolve?_internal hf hD hfixed hm (by decide)]
  cases m.bindings.resolve? "__type" with
  | none => rfl
  | some a =>
    cases a with
    | expr l =>
      rw [Option.map_some, Atom.mapNames_expr]
      cases l with
      | nil => rfl
      | cons head parts =>
        rw [List.map_cons]
        cases head with
        | symbol name =>
          rw [Atom.mapNames_symbol]
          by_cases harrow : name = "->" <;> simp [harrow]
        | _ => rfl
    | _ => rfl

/-- Spaces that mirror each other are companions if the interpreter's names stay. -/
theorem companions_of_mirroring {R : Space ν → Space ν → Prop} (hR : Space.Mirroring D f R)
    (htyped : ∀ {head : Atom ν} {name : String}, head ∈ D → declaredName? head = some name → typePattern name ∈ D) :
    Companions D f R where
  query := hR.query hf
  rules {s t} h := by
    have hpattern : (rulePattern : Atom ν) ∈ D := hD.equation (hD.internal _ (by decide)) (hD.internal _ (by decide))
    have hquery := hR.query hf h hpattern
    have hsame : (rulePattern : Atom ν).mapNames f = rulePattern := by
      simp [rulePattern, hfixed "__pattern" (by decide), hfixed "__template" (by decide)]
    rw [hsame] at hquery
    obtain ⟨hscoped, hfound, hspaces⟩ := hquery
    refine ⟨?_, hspaces⟩
    rw [hfound, List.forall₂_map_right_iff, List.forall₂_same]
    exact fun m hm => sides_mapNames hf hD hfixed (hscoped m hm)
  types {s t head name} h hhead hname := by
    have hquery := hR.query hf h (htyped hhead hname)
    have hsame : (typePattern name : Atom ν).mapNames f = typePattern name := by
      simp [typePattern, hfixed "__type" (by decide)]
    rw [hsame] at hquery
    obtain ⟨hscoped, hfound, hspaces⟩ := hquery
    refine ⟨?_, hspaces⟩
    rw [hfound, List.map_map]
    exact List.map_congr_left fun m hm => arrowArity?_mapNames hf hD hfixed (hscoped m hm)

end

/-! ## Utilities -/

section
variable {D : Set (Atom ν)} {f : String → String} {R : Space ν → Space ν → Prop} (hf : Atom.Naming D f)
  {e : Evaluator ν} (hregistry : e.registry.Keeps D f R) (hR : Companions D f R)
  (hutility : .var "__utility" ∈ D) (hfixed : f "__utility" = "__utility")
include hf hregistry hR

theorem numberOf?_companions {s t : Space ν} (hst : R s t) {a : Atom ν} (ha : a ∈ D) :
    (e.numberOf? (a.mapNames f) t).1 = (e.numberOf? a s).1 ∧
      R (e.numberOf? a s).2 (e.numberOf? (a.mapNames f) t).2 := by
  obtain ⟨-, hresults, hspaces⟩ := eval_companions hf hregistry hR hst ha e.config.maxDepth
  have hnumber : Atom.number? ∘ Atom.mapNames f = (Atom.number? : Atom ν → Option ν) :=
    funext (Atom.number?_mapNames f)
  unfold numberOf?
  rw [Atom.number?_mapNames]
  cases a.number? with
  | some x => exact ⟨rfl, hst⟩
  | none =>
    refine ⟨?_, hspaces⟩
    show ((e.eval (a.mapNames f) e.config.maxDepth t).1).findSome? Atom.number? = _
    rw [hresults, List.findSome?_map, hnumber]
    rfl

include hutility hfixed

theorem numericRules_companions {l : List (Match ν)} (hl : ∀ m ∈ l, m.bindings.Scoped D) :
    ∀ {s t : Space ν}, R s t → (e.numericRules (l.map (Match.mapNames f)) t).1 = (e.numericRules l s).1 ∧
      R (e.numericRules l s).2 (e.numericRules (l.map (Match.mapNames f)) t).2 := by
  induction l with
  | nil => exact fun hst => ⟨rfl, hst⟩
  | cons m l ih =>
    intro s t hst
    obtain ⟨hm, hl⟩ := List.forall_mem_cons.1 hl
    have hresolve := Bindings.resolve?_mapNames hf.inj hf.faithful hm hutility
    rw [hfixed] at hresolve
    rw [List.map_cons]
    unfold numericRules
    rw [show (m.mapNames f).bindings.resolve? "__utility" = _ from hresolve]
    cases hvalue : m.bindings.resolve? "__utility" with
    | none => exact ih hl hst
    | some value =>
      obtain ⟨hnumber, hspaces⟩ := numberOf?_companions hf hregistry hR hst (hm.resolve?_mem hf.faithful hvalue)
      obtain ⟨hrules, hlast⟩ := ih hl hspaces
      simp only [Option.map_some]
      rw [hnumber, hrules]
      exact ⟨rfl, hlast⟩

/-- In companion spaces an action with other names has the same utility. -/
theorem utility_companions {s t : Space ν} (hst : R s t) {action : Atom ν} (haction : utilityPattern action ∈ D) :
    (e.utility (action.mapNames f) t).1 = (e.utility action s).1 := by
  obtain ⟨hscoped, hfound, hspaces⟩ := hR.query hst haction
  have hpattern : (utilityPattern action).mapNames f = utilityPattern (action.mapNames f) := by
    simp [utilityPattern, utilityKey, hfixed]
  rw [hpattern] at hfound hspaces
  obtain ⟨hrules, -⟩ := numericRules_companions hf hregistry hR hutility hfixed hscoped hspaces
  rw [← hfound] at hrules
  exact congrArg (fun rules => (Scalar.greatest? Prod.snd rules).map Prod.snd) hrules

end

end Evaluator

/-! ## Asking again -/

/-- Code that gets along with any names, and does no more to a space than to read it. -/
structure Registry.Oblivious (r : Registry ν) : Prop where
  keeps (D : Set (Atom ν)) (f : String → String) (R : Space ν → Space ν → Prop) : Atom.Naming D f →
    Native.Sealed D → Evaluator.Companions D f R → r.Keeps D f R
  reads : r.Abides Space.Reread

theorem Registry.oblivious_standard : (Registry.standard : Registry ν).Oblivious :=
  ⟨fun _ _ _ => keeps_standard, abides_standard Space.reread_query⟩

namespace Evaluator

open Atom (IsFresh shift)

variable {e : Evaluator ν} (he : e.registry.Oblivious)
include he

theorem reread_utility (action : Atom ν) (s : Space ν) : Space.Reread s (e.utility action s).2 := by
  have hsteps : Relation.ReflTransGen Space.Reread s (e.utility action s).2 :=
    utilityRules_abides Space.reread_query he.reads action s
  generalize (e.utility action s).2 = t at hsteps ⊢
  induction hsteps with
  | refl => exact .refl s
  | tail _ hstep ih => exact ih.trans hstep

/-- Reading does not change the utility of an action, unless a name in it is one that renaming may still come
to. -/
theorem utility_reread {D : Set (Atom ν)} (hD : Atom.Domain D) {s t : Space ν} (hs : s.Calm D)
    (h : Space.Reread s t) {action : Atom ν} (haction : action ∈ D)
    (hnames : ∀ x ∈ action.names, ¬ IsFresh s.renamings x) : (e.utility action t).1 = (e.utility action s).1 := by
  obtain ⟨d, hd⟩ := Nat.exists_eq_add_of_le h.renamings
  have hnaming := hD.naming s.renamings d
  have hfixed : ∀ x ∈ Atom.internalNames, shift s.renamings d x = x := by
    have hplain : ∀ x ∈ Atom.internalNames, '#' ∉ x.toList := by decide
    exact fun x hx => Atom.shift_of_not_isFresh (Atom.not_isFresh_of_unnumbered (hplain x hx))
  have hcompanions := companions_of_mirroring hnaming hD.ample hfixed (Space.mirroring_drifted hD hs d) hD.typed
  have hutility : .var "__utility" ∈ D := hD.ample.faithful.part (hD.asked haction) (by simp)
  have hsame := utility_companions hnaming (he.keeps _ _ _ hnaming hD.sealed hcompanions) hcompanions hutility
    (Atom.shift_of_not_isFresh (Atom.not_isFresh_of_unnumbered (by decide))) ⟨.refl s, h, hd⟩ (hD.asked haction)
  rwa [Atom.mapNames_eq_self fun x hx => Atom.shift_of_not_isFresh (hnames x hx)] at hsame

end Evaluator

/-! ## Tidy atoms -/

namespace Atom

theorem domain_tidy {N : Set ν} (hN : Worded N)
    (hsealed : ∀ op ∈ Native.realOperations, ∀ x y : ν, Scalar.isFinite (op x y) = true → op x y ∈ N) :
    Domain {a : Atom ν | Tidy N a} where
  ample := ample_tidy hN
  sealed := sealed_tidy hsealed
  key_inj _ ha _ hb := ha.key_inj hN hb
  shifted {a} k d ha := by
    refine ha.mapNames fun x hx => .var ?_
    have hword := ha.isTidyWord_of_mem_names hx
    by_cases hfresh : IsFresh k x
    · obtain ⟨y, n, hn, rfl⟩ := hfresh
      rw [shift_numbered hn, isTidyWord_numbered_iff]
      exact (isTidyWord_numbered_iff y n).1 hword
    · rwa [shift_of_not_isFresh hfresh]
  typed {head name} hhead hname := by
    cases hhead with
    | @symbol other h =>
      obtain rfl : other = name := Option.some.inj hname
      exact .triple (by decide) (.symbol h) (.var (by decide))
    | _ => cases hname
  asked haction := .triple (by decide) (.call (by decide) (List.forall_mem_singleton.2 haction)) (.var (by decide))

end Atom

namespace Double

/-- All numbers, the infinite ones included. -/
def numbers : Set Double := {x | x.value.isNaN = false ∧ x.negativeNaN = false}

/-- Numbers are told apart by their keys, also infinite ones. -/
theorem eq_of_key {x y : Double} (hx : x ∈ numbers) (hy : y ∈ numbers) (h : Scalar.key x = Scalar.key y) : x = y := by
  have hinf (negative : Bool) : 'f' ∈ ((if negative then "-" else "") ++ "inf").toList := by
    cases negative <;> decide
  have hvalue : x.value = y.value := by
    rcases key_cases hx.1 with ⟨hxinf, hxkey⟩ | ⟨hxfinite, hxkey⟩ <;>
      rcases key_cases hy.1 with ⟨hyinf, hykey⟩ | ⟨hyfinite, hykey⟩
    · rw [hxkey, hykey] at h
      refine value_eq_of_magnitude hx.1 hy.1 ?_ ((magnitude_infinite hxinf).trans (magnitude_infinite hyinf).symm)
      revert h
      cases x.isNegative <;> cases y.isNegative <;> decide
    · exact absurd (hykey 'f' (h ▸ hxkey ▸ hinf _)) (by decide)
    · exact absurd (hxkey 'f' (h ▸ hykey ▸ hinf _)) (by decide)
    · exact value_eq_of_key hxfinite hyfinite h
  obtain ⟨_, _⟩ := x
  obtain ⟨_, _⟩ := y
  obtain rfl := hx.2
  obtain rfl := hy.2
  exact congrArg (Double.mk · false) hvalue

theorem worded_numbers : Atom.Worded numbers where
  word {x} hx := by
    rcases key_cases hx.1 with ⟨-, hkey⟩ | ⟨-, hkey⟩
    · rw [hkey]
      cases x.isNegative <;> decide
    · exact (Atom.isTidyWord_iff _).2 fun c hc => Atom.tidyChar_of_numeralChar (hkey c hc)
  inj := eq_of_key

theorem ofOperation_mem_numbers {x y : Double} {r : Float} (h : (ofOperation x y r).value.isFinite = true) :
    ofOperation x y r ∈ numbers := by
  have hnan := isNaN_of_isFinite h
  refine ⟨hnan, ?_⟩
  unfold ofOperation at hnan ⊢
  cases hr : r.isNaN with
  | false => rfl
  | true =>
    -- what is handed on, or made of an undefined operation, is not a number
    rw [hr] at hnan
    cases hx : x.value.isNaN with
    | true =>
      rw [hx] at hnan
      exact absurd (hx.symm.trans hnan) nofun
    | false =>
      rw [hx] at hnan
      cases hy : y.value.isNaN with
      | true =>
        rw [hy] at hnan
        exact absurd (hy.symm.trans hnan) nofun
      | false =>
        rw [hy] at hnan
        exact absurd (hr.symm.trans hnan) nofun

/-- Tidy atoms with any numbers in them. -/
theorem domain_numbers : Atom.Domain {a | Atom.Tidy numbers a} := by
  refine Atom.domain_tidy worded_numbers ?_
  simp only [Native.realOperations, List.forall_mem_cons, List.not_mem_nil, false_implies, implies_true, and_true]
  exact ⟨fun _ _ => ofOperation_mem_numbers, fun _ _ => ofOperation_mem_numbers,
    fun _ _ => ofOperation_mem_numbers, fun _ _ => ofOperation_mem_numbers⟩

end Double

end Atomspace
