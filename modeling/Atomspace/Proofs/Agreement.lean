import Atomspace.Proofs.Exact
import Atomspace.Proofs.Reachable
import Atomspace.Random.SplitMix
import Atomspace.World.Chain
/-!
# The table and the index agree

Whatever is done to a space, its table and its index stay in step (`agreement_of_uses`). `Filed` says
that a look-up in the one answers a look-up in the other; what is left is that nothing is listed
twice (`Distinct`), so that the entries of the table are what look-ups find.
-/

namespace Atomspace

namespace Space

variable {ν : Type}

/-! ## Nothing is listed twice -/

/-- No key is twice in the table, in the index or in a bucket. -/
structure Distinct (s : Space ν) : Prop where
  slots : s.slots.keys.Nodup
  index : s.index.keys.Nodup
  bucket : ∀ head, (s.bucket head).Nodup

theorem Distinct.of_keys {s t : Space ν} (hs : s.Distinct) (hkeys : t.slots.keys = s.slots.keys)
    (hindex : t.index = s.index) : t.Distinct := by
  refine ⟨hkeys ▸ hs.slots, hindex ▸ hs.index, ?_⟩
  intro head
  rw [Space.bucket, hindex]
  exact hs.bucket head

theorem slots_file (s : Space ν) (head key : String) : (s.file head key).slots = s.slots := by
  unfold file
  simp only
  split <;> rfl

theorem Distinct.file {s : Space ν} (hs : s.Distinct) (head key : String) : (s.file head key).Distinct := by
  refine ⟨slots_file s head key ▸ hs.slots, ?_, ?_⟩ <;> unfold Space.file <;> simp only <;> split
  · exact hs.index
  · exact Table.nodup_keys_insert hs.index _ _
  · exact hs.bucket
  · rename_i hnew
    intro h
    rw [bucket_insert]
    split
    · rw [List.nodup_append]
      refine ⟨hs.bucket head, by simp, ?_⟩
      rintro k hk _ hkey rfl
      rw [List.mem_singleton.1 hkey] at hk
      exact hnew (by simpa using hk)
    · exact hs.bucket h

theorem Distinct.unfile {s : Space ν} (hs : s.Distinct) (head key : String) :
    (s.unfile head key).Distinct := by
  have hkept := (hs.bucket head).filter fun k => !(k == key)
  refine ⟨hs.slots, ?_, ?_⟩ <;> unfold Space.unfile <;> simp only <;> split
  · exact Table.nodup_keys_erase hs.index _
  · exact Table.nodup_keys_insert hs.index _ _
  · intro h
    rw [bucket_erase]
    split
    · exact List.nodup_nil
    · exact hs.bucket h
  · intro h
    rw [bucket_insert]
    split
    · exact hkept
    · exact hs.bucket h

variable [Scalar ν]

theorem Distinct.touch {s : Space ν} (hs : s.Distinct) (key : String) (amount : ν) :
    (s.touch key amount).Distinct :=
  hs.of_keys (Table.keys_modify ..) rfl

theorem Distinct.update {s : Space ν} (hs : s.Distinct) (a : Atom ν) (f : Valuation ν → Valuation ν) :
    (s.update a f).2.Distinct := by
  unfold Space.update
  split
  · exact hs
  · exact hs.of_keys (Table.keys_modify ..) rfl

theorem Distinct.fade {s : Space ν} (hs : s.Distinct) : s.fade.Distinct := by
  refine hs.of_keys ?_ rfl
  simp [Space.fade, Table.keys, Function.comp_def]

theorem Distinct.store {s : Space ν} (hs : s.Distinct) (a : Atom ν) : (s.store a).Distinct := by
  unfold Space.store
  simp only
  split
  · rename_i head _
    have hfiled := hs.file head (s.share a).key
    exact ⟨Table.nodup_keys_insert hfiled.slots _ _, hfiled.index, hfiled.bucket⟩
  · exact ⟨Table.nodup_keys_insert hs.slots _ _, hs.index, hs.bucket⟩

theorem Distinct.drop {s : Space ν} (hs : s.Distinct) (key : String) : (s.drop key).Distinct := by
  unfold Space.drop
  split
  · exact hs
  · rename_i slot _
    simp only
    split
    · rename_i head _
      have hrest := hs.unfile head key
      exact ⟨Table.nodup_keys_erase hrest.slots _, hrest.index, hrest.bucket⟩
    · exact ⟨Table.nodup_keys_erase hs.slots _, hs.index, hs.bucket⟩

theorem Distinct.add {s : Space ν} (hs : s.Distinct) (a : Atom ν) : (s.add a).2.Distinct := by
  unfold Space.add
  simp only
  split
  · exact hs.touch ..
  · exact (hs.store a).touch ..

theorem Distinct.query {s : Space ν} (hs : s.Distinct) (pattern : Atom ν) : (s.query pattern).2.Distinct :=
  examineAll_of_touch (P := Distinct) (fun _ h => h.of_keys rfl rfl) (fun _ key amount h => h.touch key amount)
    pattern _ hs

theorem Distinct.forget {s : Space ν} (hs : s.Distinct) : s.forget.2.Distinct :=
  forget_of_drop (P := Distinct) (fun _ key _ _ _ h => h.drop key) hs.fade

theorem Distinct.operation {c : Terms ν} {s t : Space ν} (hs : s.Distinct) (h : Operation c s t) : t.Distinct := by
  cases h with
  | add a => exact hs.add a
  | assert a ht => exact (hs.add a).update ..
  | get key => exact hs.touch ..
  | update a hf => exact hs.update a _
  | boost a amount => exact hs.touch ..
  | remove hh =>
    unfold Space.remove
    split
    · exact hs
    · exact hs.drop _
  | query pattern => exact hs.query pattern
  | forget => exact hs.forget

theorem distinct_empty (config : SpaceConfig ν) : (empty config).Distinct :=
  empty_of_add (P := Distinct) ⟨List.nodup_nil, List.nodup_nil, fun _ => List.nodup_nil⟩
    fun _ _ _ hs => hs.add _

theorem Reachable.distinct {s : Space ν} (h : s.Reachable) : s.Distinct :=
  h.induct distinct_empty fun _ _ hs h => hs.operation h

/-- A head under the key of the open bucket is the symbol spelled that way, or a variable. -/
theorem eq_symbol_of_key_eq_openHead {a : Atom ν} (h : a.key = openHead) :
    a = .symbol openHead ∨ a.isVar = true := by
  have hlist := congrArg String.toList h
  cases a with
  | symbol name => exact .inl (congrArg Atom.symbol h)
  | var name => exact .inr rfl
  | _ => simp [Atom.key, openHead] at hlist

/-- A key is in one bucket, for an atom is filed under one head. -/
theorem Filed.eq_of_mem_bucket {s : Space ν} (hs : s.Filed) {key head head' : String} (h : key ∈ s.bucket head)
    (h' : key ∈ s.bucket head') : head = head' := by
  obtain ⟨a, ha, hfiled⟩ := (hs.mem_bucket _ _).1 h
  obtain ⟨b, hb, hfiled'⟩ := (hs.mem_bucket _ _).1 h'
  obtain rfl : a = b := Option.some.inj (ha.symm.trans hb)
  exact Option.some.inj (hfiled.symm.trans hfiled')

/-- No key is twice among the candidates for a pattern, unless its head is the symbol that is spelled like the
open bucket. -/
theorem Distinct.nodup_candidates {s : Space ν} (hd : s.Distinct) (hs : s.Filed) {pattern : Atom ν}
    (hhead : pattern.head? ≠ some (.symbol openHead)) : (s.candidates pattern).Nodup := by
  unfold candidates
  split
  · exact hd.slots
  · exact hd.slots
  · exact hd.slots
  · rename_i head args hvar
    have hclosed : head.key ≠ openHead := by
      intro hkey
      rcases eq_symbol_of_key_eq_openHead hkey with rfl | hvar'
      · exact hhead rfl
      · cases head with
        | var x => exact hvar x rfl
        | _ => cases hvar'
    rw [List.nodup_append]
    refine ⟨hd.bucket _, hd.bucket _, ?_⟩
    rintro key hkey _ hopen rfl
    exact hclosed (hs.eq_of_mem_bucket hkey hopen)
  · split <;> simp

/-! ## Agreement -/

/-- The table and the index list everything once. Each slot is under the key of its own atom, a bucket
holds the keys of exactly the stored expressions with that head, and no bucket is empty. -/
structure Agreement (s : Space ν) : Prop where
  distinct : s.Distinct
  keyed : ∀ e ∈ s.slots.entries, e.2.atom.key = e.1
  mem_bucket : ∀ head key, key ∈ s.bucket head ↔
    ∃ e ∈ s.slots.entries, e.1 = key ∧ headKey? e.2.atom = some head
  occupied : ∀ e ∈ s.index.entries, e.2 ≠ []

omit [Scalar ν] in
theorem Distinct.atom?_eq_some_iff {s : Space ν} (hs : s.Distinct) (key : String) (a : Atom ν) :
    s.atom? key = some a ↔ ∃ e ∈ s.slots.entries, e.1 = key ∧ e.2.atom = a := by
  constructor
  · intro h
    obtain ⟨slot, hslot, rfl⟩ := Option.map_eq_some_iff.1 h
    exact ⟨_, Table.mem_entries_of_get? hslot, rfl, rfl⟩
  · rintro ⟨e, he, rfl, rfl⟩
    rw [atom?, Table.get?_of_mem_entries hs.slots he]
    rfl

/-- The table and the index agree in every space that uses lead to from an empty one. -/
theorem agreement_of_uses {config : SpaceConfig ν} {s : Space ν} (h : Uses (empty config) s) :
    s.Agreement := by
  have hfiled := h.reachable.filed
  have hdistinct := h.reachable.distinct
  refine ⟨hdistinct, ?_, ?_, ?_⟩
  · intro e he
    exact hfiled.keyed e.1 e.2.atom ((hdistinct.atom?_eq_some_iff _ _).2 ⟨e, he, rfl, rfl⟩)
  · intro head key
    rw [hfiled.mem_bucket]
    constructor
    · rintro ⟨a, ha, hhead⟩
      obtain ⟨e, he, rfl, rfl⟩ := (hdistinct.atom?_eq_some_iff _ _).1 ha
      exact ⟨e, he, rfl, hhead⟩
    · rintro ⟨e, he, rfl, hhead⟩
      exact ⟨_, (hdistinct.atom?_eq_some_iff _ _).2 ⟨e, he, rfl, rfl⟩, hhead⟩
  · rintro ⟨head, keys⟩ he rfl
    exact hfiled.occupied head (Table.get?_of_mem_entries hdistinct.index he)

/-- A space that was given a symbol and then an expression under one key. It keeps the symbol. -/
def collided : Space (Exact fun _ => 1) :=
  let s : Space (Exact fun _ => 1) := ((empty default).add (.symbol "(f a)")).2
  (s.add (.expr [.symbol "f", .symbol "a"])).2

/-- An agent that knows this space. -/
def learner : Agent SplitMix (Exact fun _ => 1) where
  config := default
  evaluator := { config := default, registry := .standard }
  space := collided
  random := {}

/-- The expression is not filed, since the symbol holds its key. The table and the index still agree
after a cycle of an agent in a chain. -/
theorem agreement_of_uses_collided : collided.atom? "(f a)" = some (.symbol "(f a)") ∧
    collided.bucket "f" = [] ∧
    (learner.step (ChainWorld.threeStates : ChainWorld (Exact fun _ => 1))).2.1.space.Agreement := by
  refine ⟨by rfl, by rfl, ?_⟩
  have huses : Uses (empty default) learner.space :=
    .tail (.single (.step (.add _ (.symbol "(f a)")))) (.step (.add _ _))
  have hstandard : learner.evaluator.registry.Abides Step := Registry.abides_standard .query
  exact agreement_of_uses (huses.tail (.cycle hstandard trivial _))

end Space

end Atomspace
