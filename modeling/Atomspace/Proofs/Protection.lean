import Atomspace.Proofs.Writing
/-!
# What is never lost

Two ways lead an atom out of a space, removal and forgetting (`Operation.keeps`). Forgetting spares the
protected symbols and the variables by what is stored. Removal refuses the protected symbols by the kind of
what it is given, and then goes by the key. No atom with a key of its own passes (`Atom.not_evades`), but a
variable that is put together by hand may be spelled like a protected symbol, and takes it out of the space
(`Protected.remove_iff`).
-/

namespace Atomspace

variable {ν : Type} [Scalar ν]

/-! ## Keys of protected symbols -/

/-- It has the key of a protected symbol and is of another kind, so that removal does not refuse it. -/
def Atom.Handle.Evades (h : Handle) : Prop :=
  h.kind ≠ .symbol ∧ h.key ∈ Space.protectedNames

instance (h : Atom.Handle) : Decidable h.Evades :=
  inferInstanceAs (Decidable (_ ∧ _))

omit [Scalar ν] in
/-- No protected name begins like the key of a variable, an expression or a wrapped value. -/
theorem Space.append_not_mem_protectedNames (opening : String)
    (h : ∀ name ∈ protectedNames, ¬ opening.toList <+: name.toList) (rest : String) :
    opening ++ rest ∉ protectedNames := by
  intro hmem
  apply h _ hmem
  rw [String.toList_append]
  exact List.prefix_append _ _

open Space (append_not_mem_protectedNames) in
/-- Of the atoms that keys are made for, only a protected symbol has the key of one. -/
theorem Atom.not_evades (a : Atom ν) : ¬ a.handle.Evades := by
  rintro ⟨hkind, hkey⟩
  rw [key_handle] at hkey
  revert hkey
  cases a with
  | symbol name => exact absurd rfl hkind
  | var name => exact append_not_mem_protectedNames "$" (by decide) _
  | expr children =>
    rw [Atom.key, String.append_assoc]
    exact append_not_mem_protectedNames "(" (by decide) _
  | int value => exact append_not_mem_protectedNames "&int " (by decide) _
  | float value => exact append_not_mem_protectedNames "&float " (by decide) _
  | str value => exact append_not_mem_protectedNames "&str " (by decide) _
  | list items =>
    rw [Atom.key, String.append_assoc]
    exact append_not_mem_protectedNames "&list [" (by decide) _
  | function name => exact append_not_mem_protectedNames "&fn " (by decide) _

namespace Space

variable {c : Terms ν} {s t : Space ν} {key : String} {a : Atom ν} {h : Atom.Handle}

omit [Scalar ν] in
theorem isProtected_eq_false_of_evades (hh : h.Evades) : isProtected h = false := by
  simp [isProtected, hh.1]

omit [Scalar ν] in
theorem evades_of_key_mem (hfree : isProtected h = false) (hkey : h.key ∈ protectedNames) : h.Evades := by
  refine ⟨fun hkind => ?_, hkey⟩
  simp [isProtected, hkind, hkey] at hfree

/-! ## Ways out -/

theorem atom?_add_of_stored (ha : s.atom? key = some a) (b : Atom ν) : (s.add b).2.atom? key = some a := by
  rw [atom?_eq] at ha ⊢
  rw [fact?_add]
  split
  · obtain ⟨fact, hfact, rfl⟩ := Option.map_eq_some_iff.1 ha
    rw [hfact]
    rfl
  · exact ha

/-- A maintenance cycle spares variables and protected symbols. -/
theorem atom?_forget_of_spared (ha : s.atom? key = some a) (hspared : a.isVar = true ∨ isProtected a = true) :
    s.forget.2.atom? key = some a := by
  apply forget_of_drop (P := fun t => t.atom? key = some a)
  · intro t other slot hslot hforgettable ht
    rw [atom?_drop, if_neg]
    · exact ht
    · -- the slot that goes would be the one that is spared
      rintro rfl
      rw [atom?, hslot] at ht
      cases ht
      simp only [isForgettable, Bool.and_eq_true, Bool.not_eq_true'] at hforgettable
      obtain ⟨⟨-, hvar⟩, hprotected⟩ := hforgettable
      rw [hvar, hprotected] at hspared
      simp at hspared
  · exact ((revalued_fade s).atom? key).trans ha

theorem contains_add_iff : (s.add a).2.contains key = true ↔ key = a.key ∨ s.contains key = true := by
  rw [← fact?_isSome, fact?_add, ← fact?_isSome]
  split
  · rename_i e
    simp [e]
  · rename_i hne
    simp [hne]

theorem atom?_remove_of_free (hfree : isProtected h = false) (key : String) :
    (s.remove h).2.atom? key = if key = h.key then none else s.atom? key := by
  rw [remove, if_neg (by simp [hfree]), atom?_drop]

/-- An atom stays under its key unless something of that key is removed or a maintenance cycle forgets it. -/
theorem Operation.keeps (h : Operation c s t) (ha : s.atom? key = some a) :
    t.atom? key = some a ∨
      (∃ b : Atom.Handle, c.removes b ∧ b.key = key ∧ isProtected b = false ∧ t = (s.remove b).2) ∨
      (a.isVar = false ∧ isProtected a = false ∧ t = s.forget.2) := by
  cases h with
  | add b => exact .inl (atom?_add_of_stored ha b)
  | assert b ht => exact .inl (((revalued_update ..).atom? key).trans (atom?_add_of_stored ha b))
  | get other => exact .inl (((revalued_touch ..).atom? key).trans ha)
  | update b hf => exact .inl (((revalued_update ..).atom? key).trans ha)
  | boost b amount => exact .inl (((revalued_touch ..).atom? key).trans ha)
  | query pattern => exact .inl (((s.read_query pattern).revalued.atom? key).trans ha)
  | @remove b hb =>
    cases hfree : isProtected b with
    | true =>
      left
      rw [Space.remove, if_pos hfree]
      exact ha
    | false =>
      by_cases hkey : b.key = key
      · exact .inr (.inl ⟨b, hb, hkey, hfree, rfl⟩)
      · left
        rw [atom?_remove_of_free hfree, if_neg (Ne.symm hkey)]
        exact ha
  | forget =>
    cases hvar : a.isVar with
    | true => exact .inl (atom?_forget_of_spared ha (.inl hvar))
    | false =>
      cases hprotected : isProtected a with
      | true => exact .inl (atom?_forget_of_spared ha (.inr hprotected))
      | false => exact .inr (.inr ⟨rfl, rfl, rfl⟩)

/-! ## Protected symbols -/

/-- Every protected name is stored as the symbol of that name. -/
def Protected (s : Space ν) : Prop :=
  ∀ name ∈ protectedNames, s.atom? name = some (.symbol name)

/-- Nothing is removed that evades the guard of the protected symbols. -/
def Terms.sparing : Terms ν :=
  { Terms.any with removes := fun h => ¬ h.Evades }

theorem conduct_sparing : Conduct (Operation (.sparing : Terms ν)) :=
  conduct_operation (fun _ => trivial) Atom.not_evades

theorem Protected.operation (hs : s.Protected) (h : Operation .sparing s t) : t.Protected := by
  intro name hname
  rcases h.keeps (hs name hname) with hstays | ⟨b, hb, rfl, hfree, -⟩ | ⟨-, hfree, -⟩
  · exact hstays
  · exact absurd (evades_of_key_mem hfree hname) hb
  · simp [isProtected, Atom.kind, Atom.key, hname] at hfree

/-- What removal is given decides whether the protected symbols stay. -/
theorem Protected.remove_iff (hs : s.Protected) (h : Atom.Handle) : (s.remove h).2.Protected ↔ ¬ h.Evades := by
  constructor
  · intro hafter hh
    have hgone := hafter h.key hh.2
    rw [atom?_remove_of_free (isProtected_eq_false_of_evades hh), if_pos rfl] at hgone
    cases hgone
  · exact fun hh => hs.operation (.remove s hh)

theorem contains_foldl_add {name : String} {names : List String} (h : name ∈ names ∨ s.contains name = true) :
    (names.foldl (fun s name => (s.add (.symbol name)).2) s).contains name = true := by
  induction names generalizing s with
  | nil => exact h.resolve_left List.not_mem_nil
  | cons first names ih =>
    apply ih
    rw [List.mem_cons] at h
    rw [contains_add_iff]
    rcases h with (rfl | h) | h
    · exact .inr (.inl rfl)
    · exact .inl h
    · exact .inr (.inr h)

theorem protected_empty (config : SpaceConfig ν) : (empty config).Protected := by
  intro name hname
  have hcontains : (empty config).contains name = true := contains_foldl_add (.inl hname)
  rw [contains_eq] at hcontains
  obtain ⟨a, ha⟩ := Option.isSome_iff_exists.1 hcontains
  exact (atom?_empty ha).2 ▸ ha

theorem protected_of_usesBy {config : SpaceConfig ν} (h : UsesBy .sparing (empty config) s) : s.Protected :=
  h.keeps conduct_sparing (fun _ _ hs hstep => hs.operation hstep) (protected_empty config)

/-- A maintenance cycle leaves every variable in its place. The protected symbols are stored in every space that
uses lead to in which nothing is removed that evades the guard, and only by such a removal one gets lost. -/
theorem durable_of_uses :
    (∀ (s : Space ν) key x, s.atom? key = some (.var x) → s.forget.2.atom? key = some (.var x)) ∧
      ∀ config (s : Space ν), UsesBy .sparing (empty config) s →
        s.Protected ∧ ∀ handle, (s.remove handle).2.Protected ↔ ¬ handle.Evades := by
  refine ⟨fun s key x hx => atom?_forget_of_spared hx (.inl rfl), fun config s h => ?_⟩
  have hs := protected_of_usesBy h
  exact ⟨hs, hs.remove_iff⟩

/-- A configuration to forget whatever may be forgotten. -/
def greedy : SpaceConfig (Exact fun _ => 1) :=
  { (default : SpaceConfig (Exact fun _ => 1)) with minPriority := 2, triggerSize := 0 }

/-- A space with a variable and two symbols. -/
def threatened : Space (Exact fun _ => 1) :=
  ((((empty greedy).add (.var "x")).2.add (.symbol "(a)")).2.add (.symbol "b")).2

/-- It is asked to give up a protected symbol, and a variable that is spelled like the symbol `b`. -/
def besieged : Space (Exact fun _ => 1) :=
  ((threatened.remove (.symbol "=" : Atom (Exact fun _ => 1))).2.remove ⟨.var, "b"⟩).2

/-- It gives up `b`, and `(a)` in the next cycle. The protected symbols are still there, until a variable is removed
that is spelled like one. -/
theorem durable_of_uses_besieged : besieged.contains "b" = false ∧ besieged.forget.2.contains "(a)" = false ∧
    besieged.forget.2.atom? "$x" = some (.var "x") ∧ besieged.forget.2.Protected ∧
    ¬ (besieged.forget.2.remove ⟨.var, "="⟩).2.Protected := by
  have hthreatened : UsesBy .sparing (empty greedy) threatened :=
    .tail (.tail (.single (.step (.add _ _))) (.step (.add _ _))) (.step (.add _ _))
  have hplain : ¬ Atom.Handle.Evades ⟨.var, "b"⟩ := by decide
  have huses : UsesBy .sparing (empty greedy) besieged.forget.2 :=
    .tail (.tail (.tail hthreatened (.step (.remove _ (Atom.not_evades (.symbol "=")))))
      (.step (.remove _ hplain))) (.step (.forget _))
  obtain ⟨hvariables, hsymbols⟩ := @durable_of_uses (Exact fun _ => 1) _
  obtain ⟨hprotected, hremove⟩ := hsymbols _ _ huses
  exact ⟨by decide +kernel, by decide +kernel, hvariables _ "$x" "x" (by rfl), hprotected,
    fun h => (hremove _).1 h (by decide)⟩

/-- The variable that is spelled `=` takes the symbol `=` out of a new space. -/
theorem remove_takes_protected : ¬ ∀ (config : SpaceConfig (Exact fun _ => 1)) (s : Space (Exact fun _ => 1)),
    Uses (empty config) s → s.Protected := by
  intro hall
  have huses : Uses (empty default) ((empty (default : SpaceConfig (Exact fun _ => 1))).remove ⟨.var, "="⟩).2 :=
    .single (.step (Step.remove _ _))
  exact ((protected_empty default).remove_iff ⟨.var, "="⟩).1 (hall _ _ huses) (by decide)

end Space

end Atomspace
