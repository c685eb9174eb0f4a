import Atomspace.Proofs.Copies
/-!
# Other names for variables

Variables get other names throughout an atom, the items of its lists included (`Atom.mapNames`). Names
that are kept apart keep atoms apart (`Atom.mapNames_inj`), and to substitute and then rename is to rename
and then substitute what is renamed (`Atom.mapNames_bind`, `Bindings.subst_mapNames`).
-/

namespace Atomspace

variable {ν : Type}

namespace Atom

mutual

/-- The atom with another name for every variable, also for those in lists. -/
def mapNames (f : String → String) : Atom ν → Atom ν
  | var name => var (f name)
  | expr children => expr (mapNamesAll f children)
  | list items => list (mapNamesAll f items)
  | a => a

/-- The atoms with another name for every variable. -/
def mapNamesAll (f : String → String) : List (Atom ν) → List (Atom ν)
  | [] => []
  | a :: l => mapNames f a :: mapNamesAll f l

end

mutual

/-- The names of all variables in an atom, also of those in lists. -/
def names : Atom ν → List String
  | var name => [name]
  | expr children => namesAll children
  | list items => namesAll items
  | _ => []

/-- The names of all variables in a list of atoms. -/
def namesAll : List (Atom ν) → List String
  | [] => []
  | a :: l => names a ++ namesAll l

end

/-! ## Names in an atom -/

theorem mapNamesAll_eq_map (f : String → String) (l : List (Atom ν)) : mapNamesAll f l = l.map (mapNames f) := by
  induction l with
  | nil => rfl
  | cons a l ih => rw [mapNamesAll, ih, List.map_cons]

theorem namesAll_eq_flatMap (l : List (Atom ν)) : namesAll l = l.flatMap names := by
  induction l with
  | nil => rfl
  | cons a l ih => rw [namesAll, ih, List.flatMap_cons]

@[simp] theorem mapNames_var (f : String → String) (x : String) : (var x : Atom ν).mapNames f = var (f x) := rfl

@[simp] theorem mapNames_symbol (f : String → String) (name : String) :
    (symbol name : Atom ν).mapNames f = symbol name := rfl

@[simp] theorem mapNames_expr (f : String → String) (l : List (Atom ν)) :
    (expr l).mapNames f = expr (l.map (mapNames f)) := by
  rw [mapNames, mapNamesAll_eq_map]

@[simp] theorem mapNames_list (f : String → String) (l : List (Atom ν)) :
    (list l).mapNames f = list (l.map (mapNames f)) := by
  rw [mapNames, mapNamesAll_eq_map]

@[simp] theorem names_expr (l : List (Atom ν)) : (expr l).names = l.flatMap names := by
  rw [names, namesAll_eq_flatMap]

@[simp] theorem names_list (l : List (Atom ν)) : (list l).names = l.flatMap names := by
  rw [names, namesAll_eq_flatMap]

/-- Neither a variable nor made of atoms. -/
def isLeaf : Atom ν → Bool
  | var _ | expr _ | list _ => false
  | _ => true

/-- Induction over atoms and the items of lists. -/
@[elab_as_elim]
theorem inductAll {P : Atom ν → Prop} (var : ∀ x, P (var x)) (expr : ∀ l, (∀ a ∈ l, P a) → P (expr l))
    (list : ∀ l, (∀ a ∈ l, P a) → P (list l)) (leaf : ∀ a, a.isLeaf = true → P a) : ∀ a, P a
  | .var x => var x
  | .expr l => expr l fun a _ => inductAll var expr list leaf a
  | .list l => list l fun a _ => inductAll var expr list leaf a
  | .symbol _ => leaf _ rfl
  | .int _ => leaf _ rfl
  | .float _ => leaf _ rfl
  | .str _ => leaf _ rfl
  | .function _ => leaf _ rfl

theorem mapNames_leaf {a : Atom ν} (h : a.isLeaf = true) (f : String → String) : a.mapNames f = a := by
  cases a with
  | var | expr | list => cases h
  | _ => rfl

theorem names_leaf {a : Atom ν} (h : a.isLeaf = true) : a.names = [] := by
  cases a with
  | var | expr | list => cases h
  | _ => rfl

theorem names_of_mem {l : List (Atom ν)} {a : Atom ν} {x : String} (ha : a ∈ l) (hx : x ∈ a.names) :
    x ∈ l.flatMap names :=
  List.mem_flatMap.2 ⟨a, ha, hx⟩

theorem mapNames_congr {f g : String → String} (a : Atom ν) (h : ∀ x ∈ a.names, f x = g x) :
    a.mapNames f = a.mapNames g := by
  induction a using inductAll with
  | var x => exact congrArg var (h x List.mem_cons_self)
  | expr l ih =>
    rw [names_expr] at h
    rw [mapNames_expr, mapNames_expr, List.map_congr_left fun a ha => ih a ha fun x hx => h x (names_of_mem ha hx)]
  | list l ih =>
    rw [names_list] at h
    rw [mapNames_list, mapNames_list, List.map_congr_left fun a ha => ih a ha fun x hx => h x (names_of_mem ha hx)]
  | leaf a hleaf => rw [mapNames_leaf hleaf, mapNames_leaf hleaf]

theorem mapNames_id (a : Atom ν) : a.mapNames id = a := by
  induction a using inductAll with
  | var x => rfl
  | expr l ih => rw [mapNames_expr, List.map_congr_left ih, List.map_id']
  | list l ih => rw [mapNames_list, List.map_congr_left ih, List.map_id']
  | leaf a hleaf => exact mapNames_leaf hleaf id

theorem mapNames_eq_self {f : String → String} {a : Atom ν} (h : ∀ x ∈ a.names, f x = x) : a.mapNames f = a :=
  (a.mapNames_congr h).trans a.mapNames_id

theorem names_mapNames (f : String → String) (a : Atom ν) : (a.mapNames f).names = a.names.map f := by
  induction a using inductAll with
  | var x => rfl
  | expr l ih =>
    rw [mapNames_expr, names_expr, names_expr, List.flatMap_map, List.map_flatMap]
    exact List.flatMap_congr ih
  | list l ih =>
    rw [mapNames_list, names_list, names_list, List.flatMap_map, List.map_flatMap]
    exact List.flatMap_congr ih
  | leaf a hleaf => rw [mapNames_leaf hleaf, names_leaf hleaf, List.map_nil]

theorem isLeaf_mapNames (f : String → String) (a : Atom ν) : (a.mapNames f).isLeaf = a.isLeaf := by
  cases a <;> simp [isLeaf, mapNames]

theorem map_inj_of_mem {f : Atom ν → Atom ν} {l m : List (Atom ν)}
    (h : ∀ a ∈ l, ∀ b ∈ m, f a = f b → a = b) (hmap : l.map f = m.map f) : l = m := by
  induction l generalizing m with
  | nil => exact (List.map_eq_nil_iff.1 hmap.symm).symm
  | cons a l ih =>
    cases m with
    | nil => cases hmap
    | cons b m =>
      obtain ⟨hab, hlm⟩ := List.cons.inj hmap
      rw [h a List.mem_cons_self b List.mem_cons_self hab,
        ih (fun a ha b hb => h a (List.mem_cons_of_mem _ ha) b (List.mem_cons_of_mem _ hb)) hlm]

/-- Atoms whose names are kept apart are kept apart. -/
theorem mapNames_inj {f : String → String} {N : Set String} (hf : Set.InjOn f N) {a : Atom ν}
    (ha : ∀ x ∈ a.names, x ∈ N) : ∀ {b : Atom ν}, (∀ x ∈ b.names, x ∈ N) → a.mapNames f = b.mapNames f → a = b := by
  induction a using inductAll with
  | var x =>
    intro b hb h
    cases b with
    | var y => rw [hf (ha x List.mem_cons_self) (hb y List.mem_cons_self) (var.inj h)]
    | _ => simp [mapNames] at h
  | expr l ih =>
    intro b hb h
    rw [names_expr] at ha
    cases b with
    | expr m =>
      rw [names_expr] at hb
      rw [mapNames_expr, mapNames_expr, expr.injEq] at h
      rw [map_inj_of_mem (fun a hl b hm => ih a hl (fun x hx => ha x (names_of_mem hl hx))
        fun x hx => hb x (names_of_mem hm hx)) h]
    | _ => simp [mapNames] at h
  | list l ih =>
    intro b hb h
    rw [names_list] at ha
    cases b with
    | list m =>
      rw [names_list] at hb
      rw [mapNames_list, mapNames_list, list.injEq] at h
      rw [map_inj_of_mem (fun a hl b hm => ih a hl (fun x hx => ha x (names_of_mem hl hx))
        fun x hx => hb x (names_of_mem hm hx)) h]
    | _ => simp [mapNames] at h
  | leaf a hleaf =>
    intro b hb h
    have hleaf' : b.isLeaf = true := by rw [← isLeaf_mapNames f b, ← h, isLeaf_mapNames, hleaf]
    rwa [mapNames_leaf hleaf, mapNames_leaf hleaf'] at h

/-! ## Names and substitution -/

theorem mem_names_of_mem_vars {a : Atom ν} {x : String} (h : x ∈ a.vars) : x ∈ a.names := by
  induction a using induct with
  | var y => exact h
  | expr l ih =>
    rw [vars_expr] at h
    obtain ⟨a, ha, hx⟩ := List.mem_flatMap.1 h
    rw [names_expr]
    exact names_of_mem ha (ih a ha hx)
  | constant a hc =>
    rw [vars_constant hc] at h
    cases h

@[simp] theorem vars_mapNames (f : String → String) (a : Atom ν) : (a.mapNames f).vars = a.vars.map f := by
  induction a using induct with
  | var x => rfl
  | expr l ih =>
    rw [mapNames_expr, vars_expr, vars_expr, List.flatMap_map, List.map_flatMap]
    exact List.flatMap_congr ih
  | constant a hc =>
    cases a with
    | var | expr => cases hc
    | _ => simp [mapNames, vars]

@[simp] theorem kind_mapNames (f : String → String) (a : Atom ν) : (a.mapNames f).kind = a.kind := by
  cases a <;> rfl

/-- To substitute and then rename is to rename and then substitute what is renamed. -/
theorem mapNames_bind {f : String → String} (a : Atom ν) {s t : String → Atom ν}
    (h : ∀ x ∈ a.vars, t (f x) = (s x).mapNames f) : (a.bind s).mapNames f = (a.mapNames f).bind t := by
  induction a using induct with
  | var x => exact (h x List.mem_cons_self).symm
  | expr l ih =>
    rw [vars_expr] at h
    rw [bind_expr, mapNames_expr, mapNames_expr, bind_expr, List.map_map, List.map_map, expr.injEq]
    exact List.map_congr_left fun a ha => ih a ha fun x hx => h x (List.mem_flatMap.2 ⟨a, ha, hx⟩)
  | constant a hc =>
    rw [bind_constant hc]
    cases a with
    | var | expr => cases hc
    | list l => simp [bind]
    | _ => rfl

mutual

/-- The names in the lists of an atom. -/
def listNames : Atom ν → List String
  | expr children => listNamesAll children
  | list items => namesAll items
  | _ => []

/-- The names in the lists of some atoms. -/
def listNamesAll : List (Atom ν) → List String
  | [] => []
  | a :: l => listNames a ++ listNamesAll l

end

@[simp] theorem listNames_expr (l : List (Atom ν)) : (expr l).listNames = l.flatMap listNames := by
  rw [listNames]
  induction l with
  | nil => rfl
  | cons a l ih => rw [listNamesAll, ih, List.flatMap_cons]

theorem mem_names_of_mem_listNames {a : Atom ν} {x : String} (h : x ∈ a.listNames) : x ∈ a.names := by
  induction a using induct with
  | var y => cases h
  | expr l ih =>
    rw [listNames_expr] at h
    obtain ⟨a, ha, hx⟩ := List.mem_flatMap.1 h
    rw [names_expr]
    exact names_of_mem ha (ih a ha hx)
  | constant a hc =>
    cases a with
    | list l => exact h
    | var | expr => cases hc
    | _ => cases h

/-- After a substitution there are the names in lists, and those of what was put in. -/
theorem mem_names_bind {a : Atom ν} {s : String → Atom ν} {x : String} (h : x ∈ (a.bind s).names) :
    x ∈ a.listNames ∨ ∃ y ∈ a.vars, x ∈ (s y).names := by
  induction a using induct with
  | var y => exact .inr ⟨y, List.mem_cons_self, h⟩
  | expr l ih =>
    rw [bind_expr, names_expr, List.flatMap_map] at h
    obtain ⟨a, ha, hx⟩ := List.mem_flatMap.1 h
    rw [listNames_expr, vars_expr]
    rcases ih a ha hx with hx | ⟨y, hy, hx⟩
    · exact .inl (List.mem_flatMap.2 ⟨a, ha, hx⟩)
    · exact .inr ⟨y, List.mem_flatMap.2 ⟨a, ha, hy⟩, hx⟩
  | constant a hc =>
    rw [bind_constant hc] at h
    cases a with
    | list l => exact .inl h
    | var | expr => cases hc
    | _ => cases h

/-- A part of a copy is the renamed part, with `=` for a head that is a variable. -/
theorem copy_eq_bind_rename (h a : Atom ν) (n : Nat) : ∃ g : String → Atom ν,
    copy h n a = (a.rename n).bind g ∧ ∀ z, g z = symbol "=" ∨ g z = var z := by
  classical
  refine ⟨fun z => if h.rename n = var z then symbol "=" else var z, ?_, fun z => ?_⟩
  · refine Eq.trans (a.bind_congr fun x _ => ?_) (bind_bind a _ _).symm
    rw [bind_var]
    rcases copyVar_cases h n x with ⟨hhead, hcopy⟩ | ⟨hhead, hcopy⟩
    · rw [if_pos hhead, hcopy]
    · rw [if_neg hhead, hcopy]
  · by_cases hz : h.rename n = var z
    · exact .inl (if_pos hz)
    · exact .inr (if_neg hz)

end Atom

/-! ## Bindings under other names -/

namespace Bindings

/-- The bindings with other names for all variables. -/
def mapNames (f : String → String) (b : Bindings ν) : Bindings ν :=
  ⟨⟨b.values.entries.map fun e => (f e.1, e.2.mapNames f)⟩⟩

/-- The bound variables and their values are in the set. -/
def Scoped (D : Set (Atom ν)) (b : Bindings ν) : Prop :=
  ∀ e ∈ b.values.entries, .var e.1 ∈ D ∧ e.2 ∈ D

theorem size_mapNames (f : String → String) (b : Bindings ν) : (b.mapNames f).size = b.size :=
  List.length_map ..

variable {D : Set (Atom ν)} {f : String → String} {b : Bindings ν} {x : String} {v : Atom ν}

theorem scoped_empty : (∅ : Bindings ν).Scoped D := nofun

theorem Scoped.within (h : b.Scoped D) : b.Within D :=
  fun _ _ hv => (h _ (Table.mem_entries_of_get? hv)).2

theorem Scoped.insert (h : b.Scoped D) (hx : .var x ∈ D) (hv : v ∈ D) : (b.insert x v).Scoped D := by
  intro e he
  unfold Bindings.insert Table.insert at he
  simp only at he
  split at he
  · obtain ⟨e', he', rfl⟩ := List.mem_map.1 he
    split
    · exact ⟨(h e' he').1, hv⟩
    · exact h e' he'
  · rcases List.mem_append.1 he with he | he
    · exact h e he
    · rw [List.mem_singleton.1 he]
      exact ⟨hx, hv⟩

theorem Scoped.erase (h : b.Scoped D) (x : String) : (b.erase x).Scoped D :=
  fun e he => h e (List.mem_filter.1 he).1

section
variable (hinj : ∀ x y, Atom.var x ∈ D → Atom.var y ∈ D → f x = f y → x = y)
include hinj

theorem beq_names {y : String} (hx : Atom.var x ∈ D) (hy : Atom.var y ∈ D) : (f x == f y) = (x == y) := by
  rw [Bool.eq_iff_iff, beq_iff_eq, beq_iff_eq]
  exact ⟨hinj x y hx hy, congrArg f⟩

theorem find?_mapNames (hb : b.Scoped D) (hx : .var x ∈ D) :
    (b.mapNames f).find? (f x) = (b.find? x).map (Atom.mapNames f) := by
  obtain ⟨⟨entries⟩⟩ := b
  show List.lookup (f x) (entries.map _) = (List.lookup x entries).map _
  induction entries with
  | nil => rfl
  | cons e entries ih =>
    obtain ⟨he, hentries⟩ := List.forall_mem_cons.1 hb
    rw [List.map_cons, List.lookup_cons, List.lookup_cons, beq_names hinj hx he.1]
    split
    · rfl
    · exact ih hentries

theorem insert_mapNames (hb : b.Scoped D) (hx : .var x ∈ D) (v : Atom ν) :
    (b.mapNames f).insert (f x) (v.mapNames f) = (b.insert x v).mapNames f := by
  have hcontains : (b.mapNames f).values.contains (f x) = b.values.contains x := by
    have hfind := find?_mapNames hinj hb hx
    unfold find? at hfind
    rw [Table.contains, Table.contains, hfind, Option.isSome_map]
  unfold insert Table.insert
  rw [hcontains]
  split
  · refine congrArg (fun l => Bindings.mk (Table.mk l)) ?_
    show (b.values.entries.map _).map _ = (b.values.entries.map _).map _
    rw [List.map_map, List.map_map]
    refine List.map_congr_left fun e he => ?_
    simp only [Function.comp_apply]
    rw [beq_names hinj (hb e he).1 hx]
    split <;> rfl
  · refine congrArg (fun l => Bindings.mk (Table.mk l)) ?_
    show b.values.entries.map _ ++ _ = (b.values.entries ++ _).map _
    rw [List.map_append]
    rfl

theorem erase_mapNames (hb : b.Scoped D) (hx : .var x ∈ D) :
    (b.mapNames f).erase (f x) = (b.erase x).mapNames f := by
  refine congrArg (fun l => Bindings.mk (Table.mk l)) ?_
  show (b.values.entries.map _).filter _ = (b.values.entries.filter _).map _
  rw [List.filter_map]
  refine congrArg (List.map _) (List.filter_congr fun e he => ?_)
  simp only [Function.comp_apply, beq_names hinj (hb e he).1 hx]

variable [Scalar ν] (hD : Atom.Faithful D)
include hD

theorem expand_mapNames (n : Nat) : ∀ {b : Bindings ν} {x : String}, b.Scoped D → .var x ∈ D →
    (b.mapNames f).expand n (f x) = (b.expand n x).mapNames f := by
  induction n with
  | zero => exact fun _ _ => rfl
  | succ n ih =>
    intro b x hb hx
    have hfind := find?_mapNames hinj hb hx
    unfold expand
    rw [hfind]
    cases hv : b.find? x with
    | none => rfl
    | some v =>
      have hmem := (hb _ (Table.mem_entries_of_get? hv)).2
      simp only [Option.map_some]
      rw [erase_mapNames hinj hb hx]
      exact (v.mapNames_bind fun y hy => ih (hb.erase x) (hD.var_mem hmem hy)).symm

/-- Substitution commutes with other names. -/
theorem subst_mapNames (hb : b.Scoped D) {a : Atom ν} (ha : a ∈ D) :
    (b.mapNames f).subst (a.mapNames f) = (b.subst a).mapNames f := by
  unfold subst
  rw [size_mapNames]
  exact (a.mapNames_bind fun x hx => expand_mapNames hinj hD _ hb (hD.var_mem ha hx)).symm

theorem resolve?_mapNames (hb : b.Scoped D) (hx : .var x ∈ D) :
    (b.mapNames f).resolve? (f x) = (b.resolve? x).map (Atom.mapNames f) := by
  unfold resolve?
  rw [find?_mapNames hinj hb hx, Option.map_map, Option.map_map]
  refine Option.map_congr fun v hv => subst_mapNames hinj hD hb (hb _ (Table.mem_entries_of_get? hv)).2

end

theorem Scoped.resolve?_mem [Scalar ν] (hD : Atom.Faithful D) (hb : b.Scoped D) (hv : b.resolve? x = some v) :
    v ∈ D := by
  obtain ⟨a, ha, rfl⟩ := Option.map_eq_some_iff.1 hv
  exact hb.within.subst_mem hD (hb.within x a ha)

end Bindings

end Atomspace
