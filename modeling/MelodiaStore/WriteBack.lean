import MelodiaStore.CacheKV
import MelodiaStore.ListStore

/-!
# Writing Back

`WriteLatestToStore` of `multiversion/store.go` and `multiversion/list_store.go`: at the end
of a block the latest value of every key is written to the parent store. `Store` writes to
its parent. `ListStore` writes to the parent of its parent instead, except for one key, so
that the answers of its parent, a cache store, depend on what the cache holds.

## Main results

* `writeBack_agrees_iff`: they leave the same answers exactly if no cached entry shadows a
  written value.
-/

namespace MelodiaStore

open LawfulBasicKVStore (contents)

/-! ### One key -/

variable {e : ValueItem} {key : Bytes} {π : Type}

/-- Write a version back to a store. -/
def writeVersion {π : Type} [BasicKVStore π] (key : Bytes) (mvValue : ValueItem) :
    EStateM Panic π PUnit :=
  if mvValue.isEstimate then
    throw (.text "should not have any estimate values when writing to parent store")
  else if mvValue.isDeleted then updateStore (BasicKVStore.delete · key)
  else if mvValue.value.isSome then updateStore (BasicKVStore.set · key mvValue.value)
  else pure ⟨⟩

/-- A version that is not an estimate has a value, or is a deletion. -/
theorem writeVersion_eq [BasicKVStore π] (hest : e.isEstimate = false) :
    (writeVersion key e : EStateM Panic π PUnit) = writeValue key e.value := by
  have hdel : e.isDeleted = e.value.isNone := by
    rw [ValueItem.isDeleted, show e.estimate = false from hest, Bool.not_false, Bool.and_true]
  unfold writeVersion
  rw [hest, hdel]
  cases e.value <;> rfl

/-- A version that is not an estimate, of a valid key and with a valid value, is what the
store holds afterwards. -/
theorem run_writeVersion [LawfulBasicKVStore π] (hkey : ValidKey key)
    (hvalue : ∀ v, e.value = some v → ValidValue v) (hest : e.isEstimate = false) (p : π) :
    ∃ p', (writeVersion key e).run p = .ok ⟨⟩ p' ∧
      ∀ k, contents p' k =
        if k = key then e.value else contents p k := by
  rw [writeVersion_eq hest]
  exact run_writeValue hkey hvalue p

/-- The latest version of a history that is not an estimate. -/
def IsLatest (entry : ℕ → Option ValueItem) (e : ValueItem) : Prop :=
  ∃ i, entry i = some e ∧ e.isEstimate = false ∧
    ∀ i' e', i < i' → entry i' = some e' → e'.isEstimate = true

theorem IsLatest.unique {entry : ℕ → Option ValueItem} {e' : ValueItem} (h : IsLatest entry e)
    (h' : IsLatest entry e') : e = e' := by
  obtain ⟨i, hi, hest, hlast⟩ := h
  obtain ⟨i', hi', hest', hlast'⟩ := h'
  rcases lt_trichotomy i i' with hlt | rfl | hlt
  · rw [hlast i' e' hlt hi'] at hest'
    cases hest'
  · exact Option.some.inj (hi.symm.trans hi')
  · rw [hlast' i e hlt hi] at hest
    cases hest

/-- `GetLatestNonEstimate` finds it. -/
theorem MultiVersionValue.getLatestNonEstimate_eq_iff {item : MultiVersionValue}
    {latest : Option ValueItem} (h : item.getLatestNonEstimate = .ok latest) :
    latest = some e ↔ IsLatest item.slot e := by
  constructor
  · rintro rfl
    exact getLatestNonEstimate_eq_some h
  · intro hlatest
    cases latest with
    | none =>
      obtain ⟨i, hi, hest, -⟩ := hlatest
      rw [getLatestNonEstimate_eq_none h hi] at hest
      cases hest
    | some e' => rw [IsLatest.unique hlatest (getLatestNonEstimate_eq_some h)]

/-! ### The store -/

namespace Store

variable {π : Type} {s : Store π}

/-- One round of the loop of `WriteLatestToStore`. -/
def writeLatestKey [BasicKVStore π] (key : Bytes) : EStateM Panic (Store π) PUnit := do
  match (← get).multiVersionMap.lookup key with
  | none => pure ⟨⟩
  | some val =>
    match ← ofExcept val.getLatestNonEstimate with
    | none => pure ⟨⟩
    | some mvValue =>
      zoom Store.parentStore (fun p s => { s with parentStore := p }) (writeVersion key mvValue)

/-- `WriteLatestToStore`. -/
def writeLatestToStore [BasicKVStore π] : EStateM Panic (Store π) PUnit := do
  let keys := sortStrings (← get).multiVersionMap.keys
  forM keys writeLatestKey

/-- The version of a key that is written back. -/
def written (s : Store π) (key : Bytes) : Option ValueItem :=
  (s.multiVersionMap.lookup key).bind fun val => (val.getLatestNonEstimate.toOption).join

theorem Usable.exists_written (h : s.Usable) {val : MultiVersionValue}
    (hval : s.multiVersionMap.lookup key = some val) :
    val.getLatestNonEstimate = .ok (s.written key) := by
  rw [written, hval]
  cases val with
  | nilValue => exact absurd hval (h key)
  | list m => rfl
  | tree t => rfl

theorem Usable.written_eq_some_iff (h : s.Usable) {e : ValueItem} :
    s.written key = some e ↔ IsLatest (s.slot key) e := by
  cases hval : s.multiVersionMap.lookup key with
  | none =>
    simp only [written, hval, Option.bind_none, reduceCtorEq, false_iff]
    rintro ⟨i, hi, -⟩
    rw [slot, hval] at hi
    cases hi
  | some val =>
    have hslot : s.slot key = val.slot := by
      funext i
      rw [slot, hval, Option.bind_some]
    rw [hslot]
    exact MultiVersionValue.getLatestNonEstimate_eq_iff (h.exists_written hval)

/-- The versions of a store that are written back have keys and values that a parent store
accepts. -/
def WritesValid (s : Store π) : Prop :=
  ∀ k e, s.written k = some e → ValidKey k ∧ ∀ v, e.value = some v → ValidValue v

theorem run_writeLatestKey [LawfulBasicKVStore π] (husable : s.Usable) (hvalid : s.WritesValid)
    (key : Bytes) :
    ∃ p', (writeLatestKey key).run s = .ok ⟨⟩ { s with parentStore := p' } ∧
      ∀ k, contents p' k =
        if k = key then
          ((s.written k).map ValueItem.value).getD (contents s.parentStore k)
        else contents s.parentStore k := by
  -- a key without a version to write back leaves the store as it is
  rw [writeLatestKey, run_bind_of_ok (EStateM.run_get s)]
  cases hval : s.multiVersionMap.lookup key with
  | none => exact ⟨s.parentStore, rfl, eq_ite_of_eq (by rw [written, hval]; rfl)⟩
  | some val =>
    dsimp only
    rw [husable.exists_written hval, run_bind_of_ok (run_ofExcept_ok _ s)]
    cases hw : s.written key with
    | none => exact ⟨s.parentStore, rfl, eq_ite_of_eq (by rw [hw]; rfl)⟩
    | some e =>
      obtain ⟨hkey, hvalue⟩ := hvalid key e hw
      obtain ⟨-, -, hest, -⟩ := husable.written_eq_some_iff.mp hw
      obtain ⟨p', hrun, hcontents⟩ := run_writeVersion hkey hvalue hest s.parentStore
      refine ⟨p', run_zoom_eq_ok.mpr ⟨p', hrun, rfl⟩, fun k => ?_⟩
      rw [hcontents]
      split
      · next hk => rw [hk, hw]; rfl
      · rfl

/-- **`WriteLatestToStore` of `Store`** leaves in the parent the values of the versions that
are written back, and all else as it was. -/
theorem run_writeLatestToStore [LawfulBasicKVStore π] (husable : s.Usable)
    (hvalid : s.WritesValid) :
    ∃ p', writeLatestToStore.run s = .ok ⟨⟩ { s with parentStore := p' } ∧
      ∀ k, contents p' k =
        ((s.written k).map ValueItem.value).getD (contents s.parentStore k) := by
  rw [writeLatestToStore, run_bind_of_ok (EStateM.run_get s)]
  obtain ⟨_, hrun, ⟨p', rfl⟩, hlook⟩ := forM_rewrites (l := sortStrings s.multiVersionMap.keys)
    (fun t => ∃ p, t = { s with parentStore := p })
    (fun t k => contents t.parentStore k) id
    (fun k v => ((s.written k).map ValueItem.value).getD v)
    (fun k v => by cases s.written k <;> rfl)
    (fun key _ t => by
      rintro ⟨p, rfl⟩
      obtain ⟨p', hrun, hcontents⟩ :=
        run_writeLatestKey (s := { s with parentStore := p }) husable hvalid key
      exact ⟨_, hrun, ⟨p', rfl⟩, hcontents⟩)
    ⟨s.parentStore, rfl⟩
  refine ⟨p', hrun, fun k => (hlook k).trans ?_⟩
  split
  · rfl
  · next hk =>
    rw [List.map_id, mem_sortStrings, ← AList.mem_keys, ← AList.lookup_eq_none] at hk
    rw [written, hk]
    rfl

end Store

/-! ### The list store -/

/-- The one key that is written to the parent store itself. -/
theorem encodeToString_eq_iff : encodeToString key = [0x30, 0x32] ↔ key = [2] := by
  have hdigits : ∀ n < 256, hexDigit (UInt8.ofNat n / 16) = 0x30 ∧
      hexDigit (UInt8.ofNat n % 16) = 0x32 ↔ n = 2 := by
    decide +kernel
  rcases key with _ | ⟨b, _ | ⟨b', key⟩⟩
  · simp [encodeToString]
  · have hb := hdigits b.toNat b.toNat_lt
    rw [UInt8.ofNat_toNat] at hb
    simpa [encodeToString, ← UInt8.toNat_inj] using hb
  · simp [encodeToString]

namespace ListStore

variable {β : Type} {sm : ShardedMap} {entry : (_ : Bytes) × MultiVersionListItem}
  {l : ListStore (CacheKV β)}

/-- One round of the loops of `WriteLatestToStore`. -/
def writeLatestEntry [BasicKVStore β] (entry : (_ : Bytes) × MultiVersionListItem) :
    EStateM Panic (ListStore (CacheKV β)) PUnit :=
  match entry.2.getLatestNonEstimate with
  | none => pure ⟨⟩
  | some mvValue =>
    if encodeToString entry.1 = [0x30, 0x32] then
      zoom ListStore.parentStore (fun c l => { l with parentStore := c })
        (writeVersion entry.1 mvValue)
    else
      zoom (fun l => l.parentStore.parent)
        (fun p l => { l with parentStore := { l.parentStore with parent := p } })
        (writeVersion entry.1 mvValue)

/-- `WriteLatestToStore`, over a cache store, whose `GetParent` is its parent store. -/
def writeLatestToStore [BasicKVStore β] : EStateM Panic (ListStore (CacheKV β)) PUnit := do
  forM (← get).shardMap.shards fun shard => forM shard.entries writeLatestEntry

/-- The version of a key that is written back. -/
def written {π : Type} (l : ListStore π) (key : Bytes) : Option ValueItem :=
  (l.shardMap.get key).bind fun m => m.getLatestNonEstimate

theorem written_eq_some_iff {π : Type} {l : ListStore π} :
    l.written key = some e ↔ IsLatest (l.slot key) e := by
  cases hm : l.shardMap.get key with
  | none =>
    simp only [written, hm, Option.bind_none, reduceCtorEq, false_iff]
    rintro ⟨i, hi, -⟩
    rw [slot, item, hm] at hi
    cases hi
  | some m =>
    have hslot : l.slot key = MultiVersionValue.slot (.list m) := by
      funext i
      rw [slot, item, hm]
      rfl
    rw [hslot, written, hm, Option.bind_some]
    exact MultiVersionValue.getLatestNonEstimate_eq_iff rfl

/-- A traversal of the shards meets what the keys are bound to. -/
theorem get_of_mem_shards (h : entry ∈ sm.shards.flatMap fun shard => shard.entries) :
    sm.get entry.1 = some entry.2 := by
  obtain ⟨shard, hshard, hentry⟩ := List.mem_flatMap.mp h
  obtain ⟨i, hi⟩ := List.mem_iff_getElem?.mp hshard
  have hlookup := mem_entries_iff.mp hentry
  have hhome := sm.home i shard hi entry.1 (mem_iff_exists_lookup.mpr ⟨entry.2, hlookup⟩)
  rw [ShardedMap.get, hhome, hi]
  exact hlookup

theorem mem_shards_of_get {m : MultiVersionListItem} (h : sm.get key = some m) :
    (⟨key, m⟩ : (_ : Bytes) × MultiVersionListItem) ∈
      sm.shards.flatMap fun shard => shard.entries := by
  obtain ⟨shard, hshard, hlookup⟩ := Option.bind_eq_some_iff.mp h
  exact List.mem_flatMap.mpr ⟨shard, List.mem_of_getElem? hshard, mem_entries_iff.mpr hlookup⟩

variable [LawfulBasicKVStore β]

/-- The versions of a list store that are written back have keys and values that a parent
store accepts. -/
def WritesValid {π : Type} (l : ListStore π) : Prop :=
  ∀ k e, l.written k = some e → ValidKey k ∧ ∀ v, e.value = some v → ValidValue v

/-- What is seen of a key in a cache store: what is cached, and what is below. -/
def layers (c : CacheKV β) (key : Bytes) : Option Slice × Slice :=
  ((c.cache.lookup key).map CValue.value, LawfulBasicKVStore.contents c.parent key)

/-- What writing back does to the layers of a key. -/
def writeLayers (l : ListStore (CacheKV β)) (key : Bytes) (layers : Option Slice × Slice) :
    Option Slice × Slice :=
  match l.written key with
  | none => layers
  | some e => if key = [2] then (some e.value, layers.2) else (layers.1, e.value)

/-- A version goes to the cache. -/
theorem run_writeVersion_cache (hkey : ValidKey key) (hvalue : ∀ v, e.value = some v → ValidValue v)
    (hest : e.isEstimate = false) (c : CacheKV β) :
    (writeVersion key e).run c = .ok ⟨⟩ (c.setCacheValue key hkey e.value true) := by
  rw [writeVersion_eq hest]
  cases hv : e.value with
  | none => exact run_updateStore (CacheKV.delete_of_valid hkey)
  | some v => exact run_updateStore (CacheKV.set_of_valid hkey (hvalue v hv))

theorem run_writeLatestEntry (hvalid : l.WritesValid)
    (hentry : l.shardMap.get entry.1 = some entry.2) :
    ∃ c', (writeLatestEntry entry).run l = .ok ⟨⟩ { l with parentStore := c' } ∧
      ∀ k, layers c' k =
        if k = entry.1 then l.writeLayers k (layers l.parentStore k)
        else layers l.parentStore k := by
  have hw : l.written entry.1 = entry.2.getLatestNonEstimate := by rw [written, hentry]; rfl
  unfold writeLatestEntry
  rw [← hw]
  cases he : l.written entry.1 with
  | none =>
    exact ⟨l.parentStore, rfl, eq_ite_of_eq (by rw [writeLayers, he])⟩
  | some e =>
    obtain ⟨hkey, hvalue⟩ := hvalid entry.1 e he
    obtain ⟨-, -, hest, -⟩ := written_eq_some_iff.mp he
    simp only [encodeToString_eq_iff]
    by_cases h2 : entry.1 = [2]
    · rw [if_pos h2]
      refine ⟨_, run_zoom_eq_ok.mpr ⟨_, run_writeVersion_cache hkey hvalue hest _, rfl⟩,
        fun k => ?_⟩
      simp only [layers, CacheKV.setCacheValue, lookup_insert_ite]
      split
      · next hk =>
        rw [hk, writeLayers, he]
        simp [h2]
      · rfl
    · rw [if_neg h2]
      obtain ⟨p', hrun, hcontents⟩ := run_writeVersion hkey hvalue hest l.parentStore.parent
      refine ⟨_, run_zoom_eq_ok.mpr ⟨p', hrun, rfl⟩, fun k => ?_⟩
      simp only [layers, hcontents]
      split
      · next hk =>
        rw [hk, writeLayers, he]
        simp [h2]
      · rfl

/-- **`WriteLatestToStore` of `ListStore`** writes to the layer below the cache, except for
one key. -/
theorem run_writeLatestToStore (hvalid : l.WritesValid) :
    ∃ c', writeLatestToStore.run l = .ok ⟨⟩ { l with parentStore := c' } ∧
      ∀ k, layers c' k = l.writeLayers k (layers l.parentStore k) := by
  rw [writeLatestToStore, run_bind_of_ok (EStateM.run_get l), ← forM_flatMap]
  obtain ⟨_, hrun, ⟨c', rfl⟩, hlook⟩ := forM_rewrites
    (l := l.shardMap.shards.flatMap fun shard => shard.entries)
    (fun t => ∃ c, t = { l with parentStore := c }) (fun t k => layers t.parentStore k) Sigma.fst
    (fun k => l.writeLayers k)
    (fun k v => by
      simp only [writeLayers]
      cases l.written k with
      | none => rfl
      | some e => dsimp only; split <;> rfl)
    (fun entry hentry t => by
      rintro ⟨c, rfl⟩
      obtain ⟨c', hrun, hlayers⟩ := run_writeLatestEntry (l := { l with parentStore := c }) hvalid
        (get_of_mem_shards hentry)
      exact ⟨_, hrun, ⟨c', rfl⟩, hlayers⟩)
    ⟨l.parentStore, rfl⟩
  refine ⟨c', hrun, fun k => (hlook k).trans ?_⟩
  split
  · rfl
  · next hk =>
    have hnone : l.written k = none := by
      rw [written, Option.bind_eq_none_iff]
      intro m hm
      exact absurd (List.mem_map_of_mem (mem_shards_of_get hm)) hk
    rw [writeLayers, hnone]

end ListStore

/-! ### Agreement of the two stores -/

/-- Version histories of keys, by transaction; the keys and values are such as a parent store
accepts. -/
structure VersionHistory where
  entry : Bytes → ℕ → Option ValueItem
  index_eq : ∀ k i e, entry k i = some e → e.index = i
  valid : ∀ k i e, entry k i = some e → ValidKey k ∧ ∀ v, e.value = some v → ValidValue v

section Agreement

variable {β : Type} [LawfulBasicKVStore β]

/-- A store that holds version histories over a cache store. -/
structure Store.Holds (s : Store (CacheKV β)) (H : VersionHistory) (c : CacheKV β) : Prop where
  usable : s.Usable
  slot_eq : ∀ k i, s.slot k i = H.entry k i
  parent_eq : s.parentStore = c

/-- A list store that holds version histories over a cache store. -/
structure ListStore.Holds (l : ListStore (CacheKV β)) (H : VersionHistory) (c : CacheKV β) :
    Prop where
  slot_eq : ∀ k i, l.slot k i = H.entry k i
  parent_eq : l.parentStore = c

/-- What the parent store is meant to answer after the histories were written back: the value
of the latest version that is not an estimate, and without one the answer it gave before. -/
def VersionHistory.Answer (H : VersionHistory) (c : CacheKV β) (key : Bytes) (value : Slice) :
    Prop :=
  (∃ e, IsLatest (H.entry key) e ∧ value = e.value) ∨
    (∀ e, ¬ IsLatest (H.entry key) e) ∧ BasicKVStore.get c key = .ok value

/-- Both stores write back, their parent stores then give the same answers, and these are
the intended ones. -/
def WriteBackAgrees (H : VersionHistory) (c : CacheKV β) (s : Store (CacheKV β))
    (l : ListStore (CacheKV β)) : Prop :=
  ∃ s' l', Store.writeLatestToStore.run s = .ok ⟨⟩ s' ∧
    ListStore.writeLatestToStore.run l = .ok ⟨⟩ l' ∧
    ∀ key, BasicKVStore.get l'.parentStore key = BasicKVStore.get s'.parentStore key ∧
      (ValidKey key → ∃ value, BasicKVStore.get l'.parentStore key = .ok value ∧
        H.Answer c key value)

/-- No cached entry shadows a value that is written below the cache. -/
def VersionHistory.Unshadowed (H : VersionHistory) (c : CacheKV β) : Prop :=
  ∀ key e, IsLatest (H.entry key) e → key = [2] ∨
    ∀ cv, c.cache.lookup key = some cv → cv.value = e.value

variable {H : VersionHistory} {c : CacheKV β} {key : Bytes} {l : ListStore (CacheKV β)}
  {e : ValueItem} {s : Store (CacheKV β)}

omit [LawfulBasicKVStore β] in
theorem Store.Holds.written_iff (hs : s.Holds H c) :
    s.written key = some e ↔ IsLatest (H.entry key) e := by
  rw [hs.usable.written_eq_some_iff, show s.slot key = H.entry key from funext (hs.slot_eq key)]

omit [LawfulBasicKVStore β] in
theorem ListStore.Holds.written_iff (hl : l.Holds H c) :
    l.written key = some e ↔ IsLatest (H.entry key) e := by
  rw [ListStore.written_eq_some_iff,
    show l.slot key = H.entry key from funext (hl.slot_eq key)]

theorem VersionHistory.valid_of_isLatest (H : VersionHistory) (h : IsLatest (H.entry key) e) :
    ValidKey key ∧ ∀ v, e.value = some v → ValidValue v := by
  obtain ⟨i, hi, -⟩ := h
  exact H.valid key i e hi

/-- The layers of a key are what `Get` answers from. -/
theorem contents_eq_of_layers {c' : CacheKV β}
    (h : ListStore.layers c' key = l.writeLayers key (ListStore.layers c key)) :
    c'.contents key =
      match l.written key with
      | none => c.contents key
      | some e =>
        if key = [2] then e.value else ((c.cache.lookup key).map CValue.value).getD e.value := by
  have hcontents : ∀ c : CacheKV β, c.contents key =
      (ListStore.layers c key).1.getD (ListStore.layers c key).2 := fun c => rfl
  rw [hcontents, h, ListStore.writeLayers]
  cases l.written key with
  | none => rfl
  | some e =>
    dsimp only
    split <;> rfl

/-- A `Get` of a key that is not valid fails alike in every cache store. -/
theorem get_of_not_valid (h : ¬ ValidKey key) (c c' : CacheKV β) :
    BasicKVStore.get c key = BasicKVStore.get c' key := by
  change c.get key = c'.get key
  unfold CacheKV.get
  cases hkey : assertValidKey key with
  | error e => rfl
  | ok u => exact absurd (assertValidKey_eq_ok.mp hkey) h

/-- What the two stores leave for one key. -/
theorem answer_iff {cs cl : CacheKV β} (hs : s.Holds H c) (hl : l.Holds H c) (hkey : ValidKey key)
    (hcs : cs.contents key = ((s.written key).map ValueItem.value).getD (c.contents key))
    (hcl : ListStore.layers cl key = l.writeLayers key (ListStore.layers c key)) :
    (cl.contents key = cs.contents key ∧ H.Answer c key (cl.contents key)) ↔
      ∀ e, IsLatest (H.entry key) e → key = [2] ∨
        ∀ cv, c.cache.lookup key = some cv → cv.value = e.value := by
  have hget : BasicKVStore.get c key = .ok (c.contents key) := CacheKV.get_of_valid hkey
  rw [contents_eq_of_layers hcl, hcs]
  by_cases hex : ∃ e, IsLatest (H.entry key) e
  · obtain ⟨e, he⟩ := hex
    have hshadow : (if key = [2] then e.value
        else ((c.cache.lookup key).map CValue.value).getD e.value) = e.value ↔
        key = [2] ∨ ∀ cv, c.cache.lookup key = some cv → cv.value = e.value := by
      split
      · next h2 => simp [h2]
      · next h2 => cases c.cache.lookup key <;> simp [h2]
    rw [hs.written_iff.mpr he, hl.written_iff.mpr he]
    constructor
    · rintro ⟨heq, -⟩ e' he'
      rw [he'.unique he]
      exact hshadow.mp heq
    · intro h
      have heq := hshadow.mpr (h e he)
      exact ⟨heq, .inl ⟨e, he, heq⟩⟩
  · have hnone : ∀ e, ¬ IsLatest (H.entry key) e := not_exists.mp hex
    have hsw : s.written key = none :=
      Option.eq_none_iff_forall_ne_some.mpr fun e he => hnone e (hs.written_iff.mp he)
    have hlw : l.written key = none :=
      Option.eq_none_iff_forall_ne_some.mpr fun e he => hnone e (hl.written_iff.mp he)
    rw [hsw, hlw]
    exact ⟨fun _ e he => absurd he (hnone e), fun _ => ⟨rfl, .inr ⟨hnone, hget⟩⟩⟩

/-- **When the two stores agree on what they write back**: exactly when no cached entry
shadows a written value. -/
theorem writeBack_agrees_iff {H : VersionHistory} {c : CacheKV β} {s : Store (CacheKV β)}
    {l : ListStore (CacheKV β)} (hs : s.Holds H c) (hl : l.Holds H c) :
    WriteBackAgrees H c s l ↔ H.Unshadowed c := by
  obtain ⟨cs, hrun, hcs⟩ := Store.run_writeLatestToStore hs.usable fun k e he =>
    H.valid_of_isLatest (hs.written_iff.mp he)
  obtain ⟨cl, hrun', hcl⟩ := ListStore.run_writeLatestToStore fun k e he =>
    H.valid_of_isLatest (hl.written_iff.mp he)
  rw [hs.parent_eq] at hcs
  rw [hl.parent_eq] at hcl
  have hgetAll : ∀ (c : CacheKV β) key, ValidKey key →
      BasicKVStore.get c key = .ok (c.contents key) := fun _ _ => CacheKV.get_of_valid
  have hanswer : ∀ key, ValidKey key → _ := fun key hkey =>
    answer_iff hs hl hkey (hcs key) (hcl key)
  constructor
  · rintro ⟨s', l', hs', hl', hall⟩ key e he
    obtain ⟨-, rfl⟩ := EStateM.Result.ok.inj (hrun.symm.trans hs')
    obtain ⟨-, rfl⟩ := EStateM.Result.ok.inj (hrun'.symm.trans hl')
    have hkey := (H.valid_of_isLatest he).1
    obtain ⟨heq, hvalue⟩ := hall key
    obtain ⟨value, hget, hans⟩ := hvalue hkey
    obtain rfl := Except.ok.inj ((hgetAll cl key hkey).symm.trans hget)
    rw [hget, hgetAll cs key hkey] at heq
    exact (hanswer key hkey).mp ⟨Except.ok.inj heq, hans⟩ e he
  · intro hunshadowed
    refine ⟨_, _, hrun, hrun', fun key => ?_⟩
    by_cases hkey : ValidKey key
    · obtain ⟨heq, hans⟩ := (hanswer key hkey).mpr (hunshadowed key)
      refine ⟨?_, fun _ => ⟨_, hgetAll cl key hkey, hans⟩⟩
      rw [hgetAll cl key hkey, hgetAll cs key hkey, heq]
    · exact ⟨get_of_not_valid hkey cl cs, fun h => absurd h hkey⟩

end Agreement

/-! ### One version of one key -/

/-- The versions of a key that transaction `0` alone has written. -/
def singleVersion (v : Bytes) : MultiVersionListItem := ⟨[some (newValueItem 0 0 (some v))]⟩

theorem slot_singleVersion {v : Bytes} {i : ℕ} :
    (singleVersion v).slot i = some e ↔ i = 0 ∧ e = newValueItem 0 0 (some v) := by
  cases i with
  | zero => simp [singleVersion, MultiVersionListItem.slot, eq_comm]
  | succ i => simp [singleVersion, MultiVersionListItem.slot]

/-- The history in which transaction `0` has written one key. -/
def VersionHistory.single (key v : Bytes) (hkey : ValidKey key) (hv : ValidValue v) :
    VersionHistory where
  entry k i := if k = key then (singleVersion v).slot i else none
  index_eq k i e h := by
    split at h
    · obtain ⟨rfl, rfl⟩ := slot_singleVersion.mp h
      rfl
    · cases h
  valid k i e h := by
    split at h
    · next hk =>
      obtain ⟨-, rfl⟩ := slot_singleVersion.mp h
      exact ⟨hk ▸ hkey, fun v' hv' => Option.some.inj hv' ▸ hv⟩
    · cases h

section Single

variable {β : Type} {key v : Bytes} (hkey : ValidKey key) (hv : ValidValue v) (c : CacheKV β)

theorem VersionHistory.isLatest_single {k : Bytes} {e : ValueItem} :
    IsLatest ((VersionHistory.single key v hkey hv).entry k) e ↔
      k = key ∧ e = newValueItem 0 0 (some v) := by
  by_cases hk : k = key
  · simp only [IsLatest, VersionHistory.single, hk, if_true, slot_singleVersion, true_and]
    constructor
    · rintro ⟨i, ⟨-, he⟩, -⟩
      exact he
    · rintro rfl
      exact ⟨0, ⟨rfl, rfl⟩, rfl, fun i' e' hlt h => absurd h.1 (by omega)⟩
  · simp [IsLatest, VersionHistory.single, hk]

theorem Store.holds_single :
    Store.Holds { newMultiVersionStore c with
      multiVersionMap := (∅ : VersionMap).insert key (.list (singleVersion v)) }
      (.single key v hkey hv) c where
  usable k h := by
    simp only [lookup_insert_ite] at h
    split at h <;> cases h
  slot_eq k i := by
    simp only [Store.slot, lookup_insert_ite, VersionHistory.single]
    split <;> rfl
  parent_eq := rfl

theorem ListStore.holds_single :
    ListStore.Holds { newMultiVersionListStore c 1 with
      shardMap := (ShardedMap.newShardedMap 128 (by decide)).set key (singleVersion v) }
      (.single key v hkey hv) c where
  slot_eq k i := by
    simp only [ListStore.slot, ListStore.item, ShardedMap.get_set, ShardedMap.get_newShardedMap,
      VersionHistory.single]
    split <;> rfl
  parent_eq := rfl

end Single

/-- One version of a key that the cache does not hold, over a cached entry of another key. -/
theorem writeBack_agrees_iff_run :
    ∃ (H : VersionHistory) (c : CacheKV DbAdapter) (s : Store (CacheKV DbAdapter))
      (l : ListStore (CacheKV DbAdapter)), s.Holds H c ∧ l.Holds H c ∧
      IsLatest (H.entry [1]) (newValueItem 0 0 (some [7])) ∧ c.contents [3] = some [9] ∧
      (WriteBackAgrees H c s l ↔ H.Unshadowed c) := by
  have hkey : ValidKey [1] := by decide
  have hv : ValidValue [7] := by decide
  let c := (CacheKV.newStore DbAdapter.empty).setCacheValue [3] (by decide) (some [9]) true
  exact ⟨_, c, _, _, Store.holds_single hkey hv c, ListStore.holds_single hkey hv c,
    (VersionHistory.isLatest_single hkey hv).mpr ⟨rfl, rfl⟩, rfl,
    writeBack_agrees_iff (Store.holds_single hkey hv c) (ListStore.holds_single hkey hv c)⟩

/-- A cached entry of a key that a transaction has written: after `ListStore` has written
back, the parent store still answers with the cached value. -/
theorem writeBack_shadowed :
    ∃ (H : VersionHistory) (c : CacheKV DbAdapter) (s s' : Store (CacheKV DbAdapter))
      (l l' : ListStore (CacheKV DbAdapter)), s.Holds H c ∧ l.Holds H c ∧
      IsLatest (H.entry [1]) (newValueItem 0 0 (some [7])) ∧
      Store.writeLatestToStore.run s = .ok ⟨⟩ s' ∧
      ListStore.writeLatestToStore.run l = .ok ⟨⟩ l' ∧
      BasicKVStore.get s'.parentStore [1] = .ok (some [7]) ∧
      BasicKVStore.get l'.parentStore [1] = .ok (some [9]) := by
  have hkey : ValidKey [1] := by decide
  have hv : ValidValue [7] := by decide
  let c := (CacheKV.newStore DbAdapter.empty).setCacheValue [1] hkey (some [9]) true
  have hs := Store.holds_single hkey hv c
  have hl := ListStore.holds_single hkey hv c
  have hlatest := (VersionHistory.isLatest_single hkey hv).mpr ⟨rfl, rfl⟩
  obtain ⟨cs, hrun, hcs⟩ := Store.run_writeLatestToStore hs.usable fun k e he =>
    VersionHistory.valid_of_isLatest _ (hs.written_iff.mp he)
  obtain ⟨cl, hrun', hcl⟩ := ListStore.run_writeLatestToStore fun k e he =>
    VersionHistory.valid_of_isLatest _ (hl.written_iff.mp he)
  refine ⟨_, c, _, _, _, _, hs, hl, hlatest, hrun, hrun', ?_, ?_⟩
  · refine (CacheKV.get_of_valid hkey).trans (congrArg Except.ok ((hcs [1]).trans ?_))
    rw [hs.written_iff.mpr hlatest]
    rfl
  · refine (CacheKV.get_of_valid hkey).trans
      (congrArg Except.ok ((contents_eq_of_layers (hcl [1])).trans ?_))
    rw [hl.written_iff.mpr hlatest]
    rfl

end MelodiaStore
