/-!
# Tables

A table keeps one entry under each text key, in the order in which the keys first came in.
Stores, indexes, bindings and registries are tables, so the order in which anything is enumerated
is always the order of insertion.

`get?_insert`, `get?_erase` and `get?_modify` say what each change does to the entry under any key;
`keys_insert`, `keys_erase` and `keys_modify` say what it does to the keys.
-/

namespace Atomspace

/-- Entries under text keys. Every operation below keeps the keys distinct. -/
structure Table (α : Type) where
  /-- The entries, oldest key first. -/
  entries : List (String × α)

namespace Table

variable {α : Type}

instance : EmptyCollection (Table α) := ⟨⟨[]⟩⟩

instance : Inhabited (Table α) := ⟨∅⟩

/-- The entry under a key. -/
def get? (t : Table α) (key : String) : Option α :=
  t.entries.lookup key

/-- Whether there is an entry under the key. -/
def contains (t : Table α) (key : String) : Bool :=
  (t.get? key).isSome

/-- The keys, oldest first. -/
def keys (t : Table α) : List String :=
  t.entries.map Prod.fst

/-- The entries without their keys, oldest key first. -/
def values (t : Table α) : List α :=
  t.entries.map Prod.snd

/-- The number of entries. -/
def size (t : Table α) : Nat :=
  t.entries.length

/-- Whether the table has no entry. -/
def isEmpty (t : Table α) : Bool :=
  t.entries.isEmpty

/-- Changes the entry under a key, if there is one. -/
def modify (t : Table α) (key : String) (f : α → α) : Table α :=
  ⟨t.entries.map fun e => if e.1 == key then (e.1, f e.2) else e⟩

/-- Puts an entry under a key: in place of the old one, or behind all others. -/
def insert (t : Table α) (key : String) (a : α) : Table α :=
  if t.contains key then t.modify key fun _ => a else ⟨t.entries ++ [(key, a)]⟩

/-- Takes out the entry under a key. -/
def erase (t : Table α) (key : String) : Table α :=
  ⟨t.entries.filter fun e => !(e.1 == key)⟩

/-- The table of the given pairs; of two pairs with one key the later one counts. -/
def ofList (l : List (String × α)) : Table α :=
  l.foldl (fun t e => t.insert e.1 e.2) ∅

/-! ## What changes do -/

theorem get?_modify (t : Table α) (key other : String) (f : α → α) :
    (t.modify key f).get? other = if other = key then (t.get? key).map f else t.get? other := by
  obtain ⟨entries⟩ := t
  simp only [get?, modify]
  induction entries with
  | nil => simp
  | cons e entries ih =>
    obtain ⟨k, a⟩ := e
    by_cases ho : other = k
    · subst ho
      by_cases h : other = key <;> simp [h]
    · have hb : (other == k) = false := by simpa using ho
      by_cases h : k = key
      · subst h
        simpa [List.lookup_cons, hb, ho] using ih
      · have hk : (key == k) = false := by simpa using Ne.symm h
        simpa [List.lookup_cons, h, hb, hk] using ih

theorem get?_insert (t : Table α) (key other : String) (a : α) :
    (t.insert key a).get? other = if other = key then some a else t.get? other := by
  unfold insert
  split
  · rename_i h
    rw [get?_modify]
    split
    · obtain ⟨b, hb⟩ := Option.isSome_iff_exists.1 h
      simp [hb]
    · rfl
  · rename_i h
    simp only [contains, get?, Bool.not_eq_true, Option.isSome_eq_false_iff, Option.isNone_iff_eq_none] at h
    simp only [get?, List.lookup_append, List.lookup_cons, List.lookup_nil]
    by_cases ho : other = key
    · subst ho; simp [h]
    · have hb : (other == key) = false := by simpa using ho
      simp [hb, ho]

theorem get?_erase (t : Table α) (key other : String) :
    (t.erase key).get? other = if other = key then none else t.get? other := by
  obtain ⟨entries⟩ := t
  simp only [get?, erase]
  induction entries with
  | nil => simp
  | cons e entries ih =>
    obtain ⟨k, a⟩ := e
    by_cases ho : other = k
    · subst ho
      by_cases h : other = key
      · simpa [h] using ih
      · simp [h]
    · have hb : (other == k) = false := by simpa using ho
      by_cases h : k = key
      · subst h
        simpa [List.lookup_cons, hb, ho] using ih
      · simpa [List.lookup_cons, h, hb] using ih

theorem get?_mapValues {β : Type} (t : Table α) (key : String) (f : α → β) :
    Table.get? ⟨t.entries.map fun e => (e.1, f e.2)⟩ key = (t.get? key).map f := by
  obtain ⟨entries⟩ := t
  simp only [get?]
  induction entries with
  | nil => rfl
  | cons e entries ih =>
    obtain ⟨k, a⟩ := e
    by_cases h : key = k
    · subst h; simp
    · have hb : (key == k) = false := by simpa using h
      simpa [List.lookup_cons, hb] using ih

theorem keys_modify (t : Table α) (key : String) (f : α → α) : (t.modify key f).keys = t.keys := by
  simp only [keys, modify, List.map_map]
  refine List.map_congr_left fun e _ => ?_
  simp only [Function.comp_apply]
  split <;> rfl

theorem keys_insert (t : Table α) (key : String) (a : α) :
    (t.insert key a).keys = if t.contains key then t.keys else t.keys ++ [key] := by
  unfold insert
  split
  · exact keys_modify ..
  · simp [keys]

theorem keys_erase (t : Table α) (key : String) :
    (t.erase key).keys = t.keys.filter fun k => !(k == key) := by
  simp [keys, erase, List.filter_map, Function.comp_def]

theorem mem_keys_iff (t : Table α) (key : String) : key ∈ t.keys ↔ t.contains key = true := by
  obtain ⟨entries⟩ := t
  simp only [keys, contains, get?]
  induction entries with
  | nil => simp
  | cons e entries ih =>
    obtain ⟨k, a⟩ := e
    by_cases h : key = k
    · subst h; simp
    · have hb : (key == k) = false := by simpa using h
      simp [List.lookup_cons, h, hb, ih]

theorem mem_entries_of_get? {t : Table α} {key : String} {a : α} (h : t.get? key = some a) :
    (key, a) ∈ t.entries := by
  obtain ⟨l, m, e, -⟩ := List.lookup_eq_some_iff.1 h
  rw [e]
  simp

theorem nodup_keys_insert {t : Table α} (h : t.keys.Nodup) (key : String) (a : α) :
    (t.insert key a).keys.Nodup := by
  rw [keys_insert]
  split
  · exact h
  · rename_i hfree
    rw [List.nodup_append]
    refine ⟨h, by simp, ?_⟩
    rintro k hk _ hkey rfl
    rw [List.mem_singleton.1 hkey] at hk
    exact hfree ((t.mem_keys_iff key).1 hk)

theorem nodup_keys_erase {t : Table α} (h : t.keys.Nodup) (key : String) : (t.erase key).keys.Nodup := by
  rw [keys_erase]
  exact h.filter _

/-- In a table of distinct keys a look-up finds every entry. -/
theorem get?_of_mem_entries {t : Table α} (h : t.keys.Nodup) {key : String} {a : α}
    (ha : (key, a) ∈ t.entries) : t.get? key = some a := by
  obtain ⟨l, m, e⟩ := List.append_of_mem ha
  refine List.lookup_eq_some_iff.2 ⟨l, m, e, ?_⟩
  intro p hp
  rw [keys, e, List.map_append, List.map_cons, List.nodup_append] at h
  have hne := h.2.2 p.1 (List.mem_map_of_mem hp) key (by simp)
  simpa using Ne.symm hne

theorem mem_values_of_get? {t : Table α} {key : String} {a : α} (h : t.get? key = some a) :
    a ∈ t.values :=
  List.mem_map.2 ⟨_, mem_entries_of_get? h, rfl⟩

theorem get?_foldl_insert {l : List (String × α)} {key : String} {a : α} : ∀ {t : Table α},
    (l.foldl (fun t e => t.insert e.1 e.2) t).get? key = some a → t.get? key = some a ∨ (key, a) ∈ l := by
  induction l with
  | nil => exact .inl
  | cons e l ih =>
    intro t h
    rcases ih h with h | h
    · rw [get?_insert] at h
      split at h
      · rename_i e'
        cases h
        exact .inr (by simp [e'])
      · exact .inl h
    · exact .inr (List.mem_cons_of_mem _ h)

theorem mem_of_get?_ofList {l : List (String × α)} {key : String} {a : α}
    (h : (ofList l).get? key = some a) : (key, a) ∈ l := by
  rcases get?_foldl_insert h with h | h
  · cases h
  · exact h

theorem size_erase_lt (t : Table α) (key : String) (h : t.contains key = true) :
    (t.erase key).size < t.size := by
  have hk := (t.mem_keys_iff key).2 h
  obtain ⟨e, he, rfl⟩ := List.mem_map.1 hk
  exact List.length_filter_lt_length_iff_exists.2 ⟨e, he, by simp⟩

theorem erase_comm (t : Table α) (key other : String) :
    (t.erase key).erase other = (t.erase other).erase key := by
  simp [erase, List.filter_filter, Bool.and_comm]

end Table

end Atomspace
