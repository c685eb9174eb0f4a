import Atomspace.Proofs.Identity
import Atomspace.Space.Query
import Atomspace.Space.Forget
import Mathlib.Logic.Relation
/-!
# The head index

A space is *filed* when every slot is under the key of its own atom, and a bucket holds the keys of
exactly the stored expressions with that head. `Change` lists the ways in which the stored atoms
change: some valuations, one more atom, one atom less. Every operation is made of such changes, and
each of them keeps a space filed, so a query finds its candidates by what is stored
(`mem_candidates_iff`).
-/

namespace Atomspace

namespace Space

variable {ν : Type}

/-- The atom stored under a key. -/
def atom? (s : Space ν) (key : String) : Option (Atom ν) :=
  (s.slots.get? key).map Slot.atom

/-- Only valuations, the clock and the number of renamings differ. -/
structure Revalued (s t : Space ν) : Prop where
  atom? : ∀ key, t.atom? key = s.atom? key
  index : t.index = s.index
  config : t.config = s.config

theorem Revalued.refl (s : Space ν) : Revalued s s :=
  ⟨fun _ => rfl, rfl, rfl⟩

theorem contains_eq (s : Space ν) (key : String) : s.contains key = (s.atom? key).isSome := by
  rw [contains, Table.contains, atom?, Option.isSome_map]

theorem mem_slots_keys {s : Space ν} {key : String} {a : Atom ν} (ha : s.atom? key = some a) :
    key ∈ s.slots.keys := by
  rw [Table.mem_keys_iff, ← contains, contains_eq, ha]
  rfl

theorem revalued_modify (s : Space ν) (key : String) (f : Slot ν → Valuation ν) :
    Revalued s { s with slots := s.slots.modify key fun slot => { slot with value := f slot } } := by
  refine ⟨?_, rfl, rfl⟩
  intro other
  rw [atom?, atom?, Table.get?_modify]
  split
  · rename_i e
    rw [e, Option.map_map]
    rfl
  · rfl

/-! ## Buckets -/

theorem bucket_insert (s : Space ν) (head h : String) (l : List String) :
    Space.bucket { s with index := s.index.insert head l } h = if h = head then l else s.bucket h := by
  simp only [bucket, Table.get?_insert]
  split <;> rfl

theorem bucket_erase (s : Space ν) (head h : String) :
    Space.bucket { s with index := s.index.erase head } h = if h = head then [] else s.bucket h := by
  simp only [bucket, Table.get?_erase]
  split <;> rfl

theorem mem_bucket_file (s : Space ν) (head key h k : String) :
    k ∈ (s.file head key).bucket h ↔ k ∈ s.bucket h ∨ h = head ∧ k = key := by
  unfold file
  simp only
  split
  · rename_i hmem
    refine ⟨.inl, ?_⟩
    rintro (hk | ⟨rfl, rfl⟩)
    · exact hk
    · simpa using hmem
  · rw [bucket_insert]
    split
    · rename_i e
      simp [e]
    · rename_i hne
      simp [hne]

theorem mem_bucket_unfile (s : Space ν) (head key h k : String) :
    k ∈ (s.unfile head key).bucket h ↔ k ∈ s.bucket h ∧ ¬ (h = head ∧ k = key) := by
  have kept : k ∈ (s.bucket head).filter (fun k => !(k == key)) ↔ k ∈ s.bucket head ∧ k ≠ key := by
    simp [List.mem_filter]
  unfold unfile
  simp only
  split
  · rename_i hempty
    rw [bucket_erase]
    split
    · rename_i e
      rw [List.isEmpty_iff.1 hempty] at kept
      simpa [e] using kept
    · rename_i hne
      simp [hne]
  · rw [bucket_insert]
    split
    · rename_i e
      simp [e]
    · rename_i hne
      simp [hne]

theorem index_file_ne_nil {s : Space ν} (hs : ∀ h, s.index.get? h ≠ some []) (head key h : String) :
    (s.file head key).index.get? h ≠ some [] := by
  unfold file
  simp only
  split
  · exact hs h
  · rw [Table.get?_insert]
    split
    · simp
    · exact hs h

theorem index_unfile_ne_nil {s : Space ν} (hs : ∀ h, s.index.get? h ≠ some []) (head key h : String) :
    (s.unfile head key).index.get? h ≠ some [] := by
  unfold unfile
  simp only
  split
  · rw [Table.get?_erase]
    split
    · simp
    · exact hs h
  · rename_i hne
    rw [Table.get?_insert]
    split
    · simpa using hne
    · exact hs h

variable [Scalar ν]

/-! ## Changes -/

theorem revalued_touch (s : Space ν) (key : String) (amount : ν) : Revalued s (s.touch key amount) :=
  s.revalued_modify key _

theorem revalued_update (s : Space ν) (a : Atom ν) (f : Valuation ν → Valuation ν) :
    Revalued s (s.update a f).2 := by
  unfold update
  split
  · exact .refl s
  · exact s.revalued_modify a.key _

theorem revalued_fade (s : Space ν) : Revalued s s.fade := by
  let decay (v : Valuation ν) : Valuation ν := { v with priority := v.priority.decay s.config }
  refine ⟨?_, rfl, rfl⟩
  intro key
  have h := s.slots.get?_mapValues key fun slot => { slot with value := decay slot.value }
  rw [atom?, show s.fade.slots.get? key = _ from h, Option.map_map]
  rfl

/-- One change of what is stored. -/
inductive Change : Space ν → Space ν → Prop
  | revalue {s t : Space ν} : Revalued s t → Change s t
  | store {s : Space ν} {a : Atom ν} : s.contains a.key = false → Change s (s.store a)
  | drop (s : Space ν) (key : String) : Change s (s.drop key)

/-- Any number of changes. -/
abbrev Changes : Space ν → Space ν → Prop := Relation.ReflTransGen Change

theorem Revalued.changes {s t : Space ν} (h : Revalued s t) : Changes s t :=
  .single (.revalue h)

theorem changes_add (s : Space ν) (a : Atom ν) : Changes s (s.add a).2 := by
  unfold add
  simp only
  split
  · exact (revalued_touch ..).changes
  · rename_i h
    exact .head (.store (by simpa using h)) (revalued_touch ..).changes

theorem changes_assert (s : Space ν) (a : Atom ν) (t : Truth ν) : Changes s (s.assert a t).2 :=
  (s.changes_add a).trans (revalued_update ..).changes

theorem changes_remove (s : Space ν) (h : Atom.Handle) : Changes s (s.remove h).2 := by
  unfold remove
  split
  · exact .refl
  · exact .single (.drop s h.key)

/-- What the symbols of a new space keep as they are added, the space has. -/
theorem empty_of_add {P : Space ν → Prop} {config : SpaceConfig ν} (hnew : P { config })
    (hadd : ∀ s, ∀ name ∈ protectedNames, P s → P (s.add (.symbol name)).2) : P (empty config) :=
  List.foldlRecOn protectedNames _ hnew fun s hs name hname => hadd s name hname hs

/-- What is kept when variables are renamed and atoms are accessed, a query keeps as well. -/
theorem examine_of_touch {P : Space ν → Prop} (hrename : ∀ s, P s → P { s with renamings := s.renamings + 1 })
    (htouch : ∀ s key amount, P s → P (s.touch key amount)) (pattern : Atom ν) (key : String) {s : Space ν}
    (hs : P s) : P (s.examine pattern key).2 := by
  have hrefresh (a : Atom ν) : P (s.refresh a).2 := by
    unfold refresh
    split
    · exact hrename s hs
    · exact hs
  unfold examine
  split
  · exact hs
  · simp only
    split
    · exact hs
    · split
      · exact hrefresh _
      · exact htouch _ _ _ (hrefresh _)

theorem examineAll_of_touch {P : Space ν → Prop} (hrename : ∀ s, P s → P { s with renamings := s.renamings + 1 })
    (htouch : ∀ s key amount, P s → P (s.touch key amount)) (pattern : Atom ν) (keys : List String)
    {s : Space ν} (hs : P s) : P (s.examineAll pattern keys).2 := by
  induction keys generalizing s with
  | nil => exact hs
  | cons key keys ih => exact ih (examine_of_touch hrename htouch pattern key hs)

/-- What is kept when an atom goes that may be forgotten, forgetting keeps as well. -/
theorem shrink_of_drop {P : Space ν → Prop}
    (hdrop : ∀ s key slot, s.slots.get? key = some slot → s.isForgettable slot = true → P s → P (s.drop key))
    (target : Nat) (keys : List String) {s : Space ν} (hs : P s) : P (shrink target keys s).2 := by
  induction keys generalizing s with
  | nil => exact hs
  | cons key keys ih =>
    unfold shrink
    split
    · exact hs
    · apply ih
      unfold forgetAt
      split
      · exact hs
      · rename_i slot hslot
        split
        · rename_i hforgettable
          exact hdrop s key slot hslot hforgettable hs
        · exact hs

theorem forget_of_drop {P : Space ν → Prop}
    (hdrop : ∀ s key slot, s.slots.get? key = some slot → s.isForgettable slot = true → P s → P (s.drop key))
    {s : Space ν} (hs : P s.fade) : P s.forget.2 := by
  unfold forget
  simp only
  split
  · exact shrink_of_drop hdrop _ _ hs
  · exact hs

theorem changes_forget (s : Space ν) : Changes s s.forget.2 :=
  forget_of_drop (P := Changes s) (fun t key _ _ _ h => h.tail (.drop t key)) (revalued_fade s).changes

/-! ## What is stored -/

theorem stored_beq (s : Space ν) (a : Atom ν) : (s.stored a).kind = a.kind ∧ (s.stored a).key = a.key := by
  unfold stored
  split
  · split
    · rename_i h
      exact (Atom.beq_iff _ _).1 h
    · exact ⟨rfl, rfl⟩
  · exact ⟨rfl, rfl⟩

theorem share_key (s : Space ν) (a : Atom ν) : (s.share a).key = a.key := by
  cases a with
  | expr l =>
    have h : (l.map s.stored).map Atom.key = l.map Atom.key := by
      rw [List.map_map]
      exact List.map_congr_left fun a _ => (s.stored_beq a).2
    rw [share, Atom.key, Atom.key, Atom.keys_eq_map, Atom.keys_eq_map, h]
  | _ => rfl

theorem headKey?_cons (a : Atom ν) (l : List (Atom ν)) :
    headKey? (.expr (a :: l)) = some (if a.kind = .var then openHead else a.key) := by
  cases a <;> rfl

theorem headKey?_share (s : Space ν) (a : Atom ν) : headKey? (s.share a) = headKey? a := by
  cases a with
  | expr l =>
    cases l with
    | nil => rfl
    | cons a l =>
      rw [share, List.map_cons, headKey?_cons, headKey?_cons, (s.stored_beq a).1, (s.stored_beq a).2]
  | _ => rfl

theorem atom?_store (s : Space ν) (a : Atom ν) (key : String) :
    (s.store a).atom? key = if key = a.key then some (s.share a) else s.atom? key := by
  have h : (s.store a).slots = s.slots.insert (s.share a).key
      { atom := s.share a, value := .fresh (.ofLevels s.config.initialShortTerm
          s.config.initialLongTerm) s.clock } := by
    unfold store
    simp only
    split
    · unfold file
      simp only
      split <;> rfl
    · rfl
  rw [atom?, h, Table.get?_insert, share_key]
  split <;> rfl

theorem mem_bucket_store (s : Space ν) (a : Atom ν) (head key : String) :
    key ∈ (s.store a).bucket head ↔ key ∈ s.bucket head ∨ headKey? a = some head ∧ key = a.key := by
  rw [← headKey?_share s a, ← share_key s a]
  unfold store
  simp only
  split
  · rename_i h e
    rw [show ∀ slots, Space.bucket { s.file h (s.share a).key with slots } head =
      (s.file h (s.share a).key).bucket head from fun _ => rfl, mem_bucket_file, e, Option.some_inj,
      eq_comm]
  · rename_i e
    simp [e, bucket]

theorem index_store_ne_nil {s : Space ν} (hs : ∀ h, s.index.get? h ≠ some []) (a : Atom ν) (h : String) :
    (s.store a).index.get? h ≠ some [] := by
  unfold store
  simp only
  split
  · exact index_file_ne_nil hs _ _ h
  · exact hs h

/-- What `drop` does under a key that is taken. -/
theorem drop_eq {s : Space ν} {key : String} {a : Atom ν} (h : s.atom? key = some a) :
    s.drop key = match headKey? a with
      | some head => { s.unfile head key with slots := s.slots.erase key }
      | none => { s with slots := s.slots.erase key } := by
  obtain ⟨slot, hslot, rfl⟩ := Option.map_eq_some_iff.1 h
  unfold drop
  rw [hslot]
  simp only
  cases headKey? slot.atom <;> rfl

theorem drop_of_free {s : Space ν} {key : String} (h : s.atom? key = none) : s.drop key = s := by
  unfold drop
  rw [Option.map_eq_none_iff.1 h]

theorem atom?_drop (s : Space ν) (key other : String) :
    (s.drop key).atom? other = if other = key then none else s.atom? other := by
  cases h : s.atom? key with
  | none =>
    rw [drop_of_free h]
    split
    · rename_i e
      rw [e, h]
    · rfl
  | some a =>
    rw [drop_eq h]
    split <;>
    · rw [atom?, Table.get?_erase]
      split <;> rfl

theorem mem_bucket_drop (s : Space ν) (key head other : String) : other ∈ (s.drop key).bucket head ↔
    other ∈ s.bucket head ∧ ¬ (other = key ∧ ∃ a, s.atom? key = some a ∧ headKey? a = some head) := by
  cases h : s.atom? key with
  | none => simp [drop_of_free h]
  | some a =>
    rw [drop_eq h]
    split
    · rename_i head' e
      rw [show ∀ slots, Space.bucket { s.unfile head' key with slots } head =
        (s.unfile head' key).bucket head from fun _ => rfl, mem_bucket_unfile]
      simp [e, and_comm, eq_comm]
    · rename_i e
      simp [e, bucket]

theorem index_drop_ne_nil {s : Space ν} (hs : ∀ h, s.index.get? h ≠ some []) (key h : String) :
    (s.drop key).index.get? h ≠ some [] := by
  cases ha : s.atom? key with
  | none => rw [drop_of_free ha]; exact hs h
  | some a =>
    rw [drop_eq ha]
    split
    · exact index_unfile_ne_nil hs _ _ h
    · exact hs h

/-! ## Filed spaces -/

/-- Slots are under the keys of their atoms, a bucket holds the keys of what is stored with its head,
and no bucket is empty. -/
structure Filed (s : Space ν) : Prop where
  keyed : ∀ key a, s.atom? key = some a → a.key = key
  mem_bucket : ∀ head key, key ∈ s.bucket head ↔ ∃ a, s.atom? key = some a ∧ headKey? a = some head
  occupied : ∀ head, s.index.get? head ≠ some []

theorem Filed.change {s t : Space ν} (hs : s.Filed) (h : Change s t) : t.Filed := by
  cases h with
  | revalue h =>
    refine ⟨?_, ?_, ?_⟩
    · intro key a ha
      exact hs.keyed key a (h.atom? key ▸ ha)
    · intro head key
      rw [bucket, h.index, h.atom? key]
      exact hs.mem_bucket head key
    · intro head
      rw [h.index]
      exact hs.occupied head
  | @store a hnew =>
    -- a free key is in no bucket, so the only new member is the one filed with its slot
    have hfree : s.atom? a.key = none := by
      rw [contains_eq] at hnew
      simpa using hnew
    refine ⟨?_, ?_, index_store_ne_nil hs.occupied a⟩
    · intro key b hb
      rw [atom?_store] at hb
      split at hb
      · cases hb
        rename_i e
        rw [e, share_key]
      · exact hs.keyed key b hb
    · intro head key
      rw [mem_bucket_store, hs.mem_bucket, atom?_store]
      split
      · rename_i e
        subst e
        simp [hfree, headKey?_share]
      · rename_i hne
        simp [hne]
  | drop key =>
    -- the key leaves the one bucket that it is in
    refine ⟨?_, ?_, index_drop_ne_nil hs.occupied key⟩
    · intro k b hb
      rw [atom?_drop] at hb
      split at hb
      · cases hb
      · exact hs.keyed k b hb
    · intro head k
      rw [mem_bucket_drop, hs.mem_bucket, atom?_drop]
      split
      · rename_i e
        subst e
        simp
      · rename_i hne
        simp [hne]

theorem Filed.changes {s t : Space ν} (hs : s.Filed) (h : Changes s t) : t.Filed := by
  induction h with
  | refl => exact hs
  | tail _ h ih => exact ih.change h

theorem filed_empty (config : SpaceConfig ν) : (empty config).Filed := by
  have hnew : Filed { config := config } := by
    refine ⟨?_, ?_, ?_⟩
    · rintro key a ⟨⟩
    · intro head key
      constructor
      · rintro ⟨⟩
      · rintro ⟨a, ⟨⟩, -⟩
    · rintro head ⟨⟩
  exact empty_of_add hnew fun s name _ hs => hs.changes (s.changes_add (.symbol name))

/-! ## Candidates -/

/-- Whether the index offers a stored atom for a pattern: any atom if the pattern has no head or a
variable for its head, and otherwise what is filed under the same head or in the open bucket. -/
def InReach (pattern a : Atom ν) : Prop :=
  pattern.head?.all Atom.isVar = true ∨ headKey? a = headKey? pattern ∨ headKey? a = some openHead

theorem mem_candidates_iff {s : Space ν} (hs : s.Filed) (l : List (Atom ν)) {key : String} {a : Atom ν}
    (ha : s.atom? key = some a) : key ∈ s.candidates (.expr l) ↔ InReach (.expr l) a := by
  have hall : key ∈ s.slots.keys := mem_slots_keys ha
  have hbucket (head : String) : key ∈ s.bucket head ↔ headKey? a = some head := by
    simp [hs.mem_bucket, ha]
  cases l with
  | nil => exact ⟨fun _ => .inl rfl, fun _ => hall⟩
  | cons head l =>
    cases head with
    | var x => exact ⟨fun _ => .inl rfl, fun _ => hall⟩
    | _ =>
      simp only [candidates, List.mem_append, hbucket, InReach, headKey?]
      simp [Atom.head?, Atom.children?, Atom.isVar]

end Space

end Atomspace
