import Atomspace.Proofs.Agreement
import Atomspace.Proofs.Fading
import Atomspace.Proofs.Writing
/-!
# The same space in another order

Two spaces that hold the same under each key may list it in different orders (`Space.Shuffled`). It makes such
a difference in which order atoms were added (`Space.shuffled_add`), and any key can be the first in its bucket
(`Space.shuffled_promote`).
-/

namespace Atomspace

variable {ν : Type} [Scalar ν]

namespace Space

/-- The same atoms, with the same valuations and filed alike. The order in which they are listed, the clock and
the number of renamings may differ. -/
structure Shuffled (s t : Space ν) : Prop where
  config : t.config = s.config
  slots : t.slots.entries.Perm s.slots.entries
  index : t.index.keys.Perm s.index.keys
  bucket : ∀ head, (t.bucket head).Perm (s.bucket head)

variable {s t : Space ν}

omit [Scalar ν] in
theorem Shuffled.refl (s : Space ν) : Shuffled s s :=
  ⟨rfl, .refl _, .refl _, fun _ => .refl _⟩

omit [Scalar ν] in
theorem Shuffled.distinct (h : Shuffled s t) (hs : s.Distinct) : t.Distinct where
  slots := (h.slots.map Prod.fst).nodup_iff.2 hs.slots
  index := h.index.nodup_iff.2 hs.index
  bucket head := (h.bucket head).nodup_iff.2 (hs.bucket head)

omit [Scalar ν] in
theorem Shuffled.get? (h : Shuffled s t) (hs : s.Distinct) (key : String) :
    t.slots.get? key = s.slots.get? key := by
  refine Option.ext fun slot => ⟨fun hslot => ?_, fun hslot => ?_⟩
  · exact Table.get?_of_mem_entries hs.slots (h.slots.mem_iff.1 (Table.mem_entries_of_get? hslot))
  · exact Table.get?_of_mem_entries (h.distinct hs).slots (h.slots.mem_iff.2 (Table.mem_entries_of_get? hslot))

omit [Scalar ν] in
theorem Shuffled.fact? (h : Shuffled s t) (hs : s.Distinct) (key : String) : t.fact? key = s.fact? key := by
  rw [Space.fact?, h.get? hs, Space.fact?]

omit [Scalar ν] in
theorem mem_index_keys_iff (hoccupied : ∀ head, s.index.get? head ≠ some []) (head : String) :
    head ∈ s.index.keys ↔ s.bucket head ≠ [] := by
  rw [Table.mem_keys_iff, Table.contains, bucket]
  cases h : s.index.get? head with
  | none => simp
  | some keys =>
    have hkeys : keys ≠ [] := fun e => hoccupied head (e ▸ h)
    simpa using hkeys

theorem Shuffled.filed (h : Shuffled s t) (hs : s.Filed) (hd : s.Distinct) : t.Filed where
  keyed key a ha := hs.keyed key a (by rwa [atom?_eq, ← h.fact? hd, ← atom?_eq])
  mem_bucket head key := by
    rw [(h.bucket head).mem_iff, hs.mem_bucket, atom?_eq, atom?_eq, h.fact? hd]
  occupied head hnone := by
    have hlisted : head ∈ t.index.keys := by
      rw [Table.mem_keys_iff, Table.contains, hnone]
      rfl
    have hperm := h.bucket head
    rw [Space.bucket, hnone] at hperm
    exact (mem_index_keys_iff hs.occupied head).1 (h.index.mem_iff.1 hlisted) (List.nil_perm.1 hperm)

/-! ## What is held alike -/

/-- Spaces that hold the same under each key differ in nothing but the order. -/
theorem shuffled_of_get? (hs : s.Reachable) (ht : t.Reachable) (hconfig : t.config = s.config)
    (hget : ∀ key, t.slots.get? key = s.slots.get? key) : Shuffled s t := by
  have hperm (head : String) : (t.bucket head).Perm (s.bucket head) := by
    refine (List.perm_ext_iff_of_nodup (ht.distinct.bucket head) (hs.distinct.bucket head)).2 fun key => ?_
    rw [ht.filed.mem_bucket, hs.filed.mem_bucket, atom?, atom?, hget]
  refine ⟨hconfig, ?_, ?_, hperm⟩
  · refine (List.perm_ext_iff_of_nodup ht.distinct.slots.of_map hs.distinct.slots.of_map).2 ?_
    rintro ⟨key, slot⟩
    exact ⟨fun h => Table.mem_entries_of_get? (hget key ▸ Table.get?_of_mem_entries ht.distinct.slots h),
      fun h => Table.mem_entries_of_get? (hget key ▸ Table.get?_of_mem_entries hs.distinct.slots h)⟩
  · refine (List.perm_ext_iff_of_nodup ht.distinct.index hs.distinct.index).2 fun head => ?_
    rw [mem_index_keys_iff ht.filed.occupied, mem_index_keys_iff hs.filed.occupied, ne_eq, ne_eq, not_iff_not]
    exact ⟨fun h => List.nil_perm.1 (h ▸ hperm head), fun h => List.perm_nil.1 (h ▸ hperm head)⟩

/-- What is under the key of an atom that is added depends on what was there, and on what there is to share. -/
theorem get?_add_congr {a : Atom ν} (hconfig : t.config = s.config) (hclock : t.clock = s.clock)
    (hslot : t.slots.get? a.key = s.slots.get? a.key) (hshare : t.share a = s.share a) :
    (t.add a).2.slots.get? a.key = (s.add a).2.slots.get? a.key := by
  have hcontains : t.contains a.key = s.contains a.key := congrArg Option.isSome hslot
  unfold add touch
  simp only [hcontains]
  split
  · simp only [Table.get?_modify, hslot, hconfig, hclock]
  · simp only [Table.get?_modify, slots_store, Table.get?_insert, config_store, clock_store, hconfig, hclock,
      hshare, if_true]

/-- What is shared with an atom is not changed by adding another one. -/
theorem share_add {a b : Atom ν} (h : ∀ children, a.children? = some children → ∀ c ∈ children, c.key ≠ b.key) :
    (s.add b).2.share a = s.share a := by
  cases a with
  | expr children =>
    refine congrArg Atom.expr (List.map_congr_left fun c hc => ?_)
    rw [stored, stored, get?_add_of_ne s (Ne.symm (h children rfl c hc))]
  | _ => rfl

/-- Two atoms neither of which is a part of the other may be added in either order. -/
theorem shuffled_add (hs : s.Reachable) {a b : Atom ν} (hne : a.key ≠ b.key)
    (ha : ∀ children, a.children? = some children → ∀ c ∈ children, c.key ≠ b.key)
    (hb : ∀ children, b.children? = some children → ∀ c ∈ children, c.key ≠ a.key) :
    Shuffled ((s.add a).2.add b).2 ((s.add b).2.add a).2 := by
  refine shuffled_of_get? ((hs.step (.add s a)).step (.add _ b)) ((hs.step (.add s b)).step (.add _ a))
    (by simp only [config_add]) fun key => ?_
  by_cases hka : key = a.key
  · subst hka
    rw [get?_add_of_ne _ hne.symm]
    exact get?_add_congr (config_add ..) (clock_add ..) (get?_add_of_ne s hne.symm) (share_add ha)
  · by_cases hkb : key = b.key
    · subst hkb
      rw [get?_add_of_ne _ hne]
      exact (get?_add_congr (config_add ..) (clock_add ..) (get?_add_of_ne s hne) (share_add hb)).symm
    · simp only [get?_add_of_ne _ (Ne.symm hka), get?_add_of_ne _ (Ne.symm hkb)]

/-! ## Another key first -/

/-- The space with a key brought forward to the beginning of its bucket. -/
def promote (s : Space ν) (head key : String) : Space ν :=
  { s with index := s.index.modify head fun keys => key :: keys.erase key }

omit [Scalar ν] in
theorem bucket_promote {head key : String} (hkey : key ∈ s.bucket head) (h : String) :
    (s.promote head key).bucket h = if h = head then key :: (s.bucket head).erase key else s.bucket h := by
  have hsome : ∃ keys, s.index.get? head = some keys := by
    refine Option.isSome_iff_exists.1 (Option.isSome_iff_ne_none.2 fun hnone => ?_)
    rw [bucket, hnone] at hkey
    cases hkey
  obtain ⟨keys, hkeys⟩ := hsome
  rw [promote, bucket, bucket, bucket, Table.get?_modify]
  split
  · rw [hkeys]
    rfl
  · rfl

omit [Scalar ν] in
theorem shuffled_promote {head key : String} (hkey : key ∈ s.bucket head) : Shuffled s (s.promote head key) where
  config := rfl
  slots := .refl _
  index := by rw [promote, Table.keys_modify]
  bucket h := by
    rw [bucket_promote hkey]
    split
    · rename_i e
      exact e ▸ (List.perm_cons_erase hkey).symm
    · exact .refl _

end Space

end Atomspace
