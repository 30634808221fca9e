import MelodiaStore.CacheKV
import MelodiaStore.CacheMergeIterator
import MelodiaStore.Simulation

/-!
# The Cache Store and its Iterators

`cachekv/store.go` with the two maps that serve its iterators. A write goes to the cache and
marks its key as unsorted. An iterator first moves the marked keys of its range, with their
cached values, to the sorted cache (`dirtyItems`), and then merges a copy of the sorted cache
with an iterator of the parent store. Keys that were moved before and written again since
are marked again, so their old values in the sorted cache do not matter. `Write` copies the
cache to the parent store and leaves it as it is.

`sync.Map.Range` visits a map in an unspecified order; the operations that use it take the
order as an argument (`Traversal`).

## Main results

* `CacheMaps.WF`: the invariant of the three maps, a field of `CacheKVStore`.
* `CacheKVStore.iterator_eq_ok` and `CacheKVStore.exists_iterator`: an iterator has the
  entries of its range ahead, and is made for every range that is not reversed.
* `CacheKVStore.run_write`: `Write` leaves the contents of the store in the parent.
-/

namespace MelodiaStore

/-! ### The three maps -/

/-- The maps of a `cachekv.Store`. -/
structure CacheMaps where
  cache : GoMap Bytes CValue
  unsortedCache : GoMap Bytes Unit
  sortedCache : Option BTree

/-- `sortState`. -/
inductive SortState
  | stateUnsorted
  | stateAlreadySorted

namespace CacheMaps

/-- The maps of a new store. -/
def new : CacheMaps := ⟨∅, ∅, none⟩

/-- `setCacheValue`. -/
def setCacheValue (m : CacheMaps) (key : Bytes) (value : Slice) (dirty : Bool) : CacheMaps where
  cache := m.cache.insert key ⟨value, dirty⟩
  unsortedCache := if dirty then m.unsortedCache.insert key () else m.unsortedCache
  sortedCache := m.sortedCache

/-- `deleteKeysFromUnsortedCache`. -/
def deleteKeysFromUnsortedCache (m : CacheMaps) (unsorted : List (Bytes × Slice)) : CacheMaps :=
  { m with unsortedCache := unsorted.foldl (fun keys e => keys.erase e.1) m.unsortedCache }

/-- `clearUnsortedCacheSubset`. -/
def clearUnsortedCacheSubset (m : CacheMaps) (unsorted : List (Bytes × Slice))
    (sortState : SortState) : CacheMaps :=
  let m := m.deleteKeysFromUnsortedCache unsorted
  let unsorted :=
    match sortState with
    | .stateUnsorted => unsorted.insertionSort keyLe
    | .stateAlreadySorted => unsorted
  let tree := m.sortedCache.getD ∅
  { m with sortedCache := some (unsorted.foldl (fun tree e => tree.insert e.1 e.2) tree) }

/-- A range whose end comes before its start; `nil` is the least start and no end. -/
def reversed (start stop : Slice) : Bool := stop.any fun stop => decide (stop < start.getD [])

/-- The pair `dirtyItems` collects for an unsorted key: one that is in the domain and has a
cached value. -/
def unsortedPair (m : CacheMaps) (start stop : Slice) (key : Bytes) : Option (Bytes × Slice) :=
  if isKeyInDomain key start stop then
    (m.cache.lookup key).map fun cacheValue => (key, cacheValue.value)
  else none

/-- The pairs `dirtyItems` collects. -/
def unsortedPairs (order : Traversal Bytes Unit) (start stop : Slice) (m : CacheMaps) :
    List (Bytes × Slice) :=
  ((order.visit m.unsortedCache).map Sigma.fst).filterMap (m.unsortedPair start stop)

/-- `dirtyItems`. -/
def dirtyItems (order : Traversal Bytes Unit) (start stop : Slice) (m : CacheMaps) : CacheMaps :=
  if reversed start stop then m
  else m.clearUnsortedCacheSubset (m.unsortedPairs order start stop) .stateAlreadySorted

/-- The value of a key in the sorted cache. -/
def sortedValue (m : CacheMaps) (key : Bytes) : Option Slice :=
  m.sortedCache.bind fun tree => tree.lookup key

/-- A sorted cache that is not made yet is empty. -/
theorem lookup_getD_sortedCache (m : CacheMaps) (key : Bytes) :
    (m.sortedCache.getD ∅).lookup key = m.sortedValue key := by
  rw [sortedValue]
  cases m.sortedCache <;> rfl

/-! ### The invariant -/

/-- **The invariant of the maps**: a cached key is unsorted or has its cached value in the
sorted cache, the sorted cache has cached keys only, and the entries of the cache are dirty
and were checked. -/
structure WF (m : CacheMaps) : Prop where
  current : ∀ k cv, m.cache.lookup k = some cv →
    k ∈ m.unsortedCache ∨ m.sortedValue k = some cv.value
  cached : ∀ k v, m.sortedValue k = some v → k ∈ m.cache
  dirty : ∀ k cv, m.cache.lookup k = some cv → cv.dirty = true
  valid : ∀ k cv, m.cache.lookup k = some cv →
    ValidKey k ∧ ∀ v, cv.value = some v → ValidValue v

/-- Empty maps are well formed. -/
theorem wf_new : new.WF where
  current k cv h := by cases h
  cached k v h := by cases h
  dirty k cv h := by cases h
  valid k cv h := by cases h

/-- A write keeps the maps well formed. -/
theorem WF.setCacheValue {m : CacheMaps} (h : m.WF) {key : Bytes} {value : Slice}
    (hkey : ValidKey key) (hvalue : ∀ v, value = some v → ValidValue v) :
    (m.setCacheValue key value true).WF := by
  have hlook : ∀ k, (m.setCacheValue key value true).cache.lookup k =
      if k = key then some ⟨value, true⟩ else m.cache.lookup k :=
    fun k => lookup_insert_ite m.cache key k ⟨value, true⟩
  refine ⟨fun k cv hk => ?_, fun k v hk => ?_, fun k cv hk => ?_, fun k cv hk => ?_⟩
  · rw [hlook] at hk
    split at hk
    · next hkey => exact .inl ((AList.mem_insert _).mpr (.inl hkey))
    · exact (h.current k cv hk).imp_left fun hmem => (AList.mem_insert _).mpr (.inr hmem)
  · exact (AList.mem_insert _).mpr (.inr (h.cached k v hk))
  · rw [hlook] at hk
    split at hk
    · obtain rfl := Option.some.inj hk
      rfl
    · exact h.dirty k cv hk
  · rw [hlook] at hk
    split at hk
    · next heq =>
      obtain rfl := Option.some.inj hk
      exact ⟨heq ▸ hkey, hvalue⟩
    · exact h.valid k cv hk

section DirtyItems

variable {m : CacheMaps} {order : Traversal Bytes Unit} {start stop : Slice} {k : Bytes}
  {e : Bytes × Slice}

/-- The keys that are moved. -/
def Moves (m : CacheMaps) (start stop : Slice) (k : Bytes) : Prop :=
  k ∈ m.unsortedCache ∧ isKeyInDomain k start stop = true ∧ k ∈ m.cache

theorem unsortedPair_eq_some {key : Bytes} :
    m.unsortedPair start stop key = some e ↔ isKeyInDomain key start stop = true ∧
      ∃ cv, m.cache.lookup key = some cv ∧ e = (key, cv.value) := by
  rw [unsortedPair]
  split
  · next hdom => simp [hdom, eq_comm]
  · next hdom => simp [hdom]

/-- The keys that a range moves. -/
theorem mem_unsortedPairs :
    k ∈ (m.unsortedPairs order start stop).map Prod.fst ↔ m.Moves start stop k := by
  have hvisit : ∀ k, k ∈ (order.visit m.unsortedCache).map Sigma.fst ↔ k ∈ m.unsortedCache :=
    fun k => ((order.perm m.unsortedCache).map Sigma.fst).mem_iff
  simp only [unsortedPairs, List.mem_map, List.mem_filterMap, unsortedPair_eq_some]
  constructor
  · rintro ⟨_, ⟨k, ⟨e, he, rfl⟩, hdom, cv, hcv, rfl⟩, rfl⟩
    exact ⟨(hvisit e.1).mp (List.mem_map_of_mem he), hdom, mem_iff_exists_lookup.mpr ⟨cv, hcv⟩⟩
  · rintro ⟨hk, hdom, hcache⟩
    obtain ⟨cv, hcv⟩ := mem_iff_exists_lookup.mp hcache
    exact ⟨(k, cv.value), ⟨k, List.mem_map.mp ((hvisit k).mpr hk), hdom, cv, hcv, rfl⟩, rfl⟩

/-- Each of them is moved with its cached value. -/
theorem snd_of_mem_unsortedPairs (he : e ∈ m.unsortedPairs order start stop) :
    e.2 = ((m.cache.lookup e.1).map CValue.value).getD none := by
  obtain ⟨u, -, hpair⟩ := List.mem_filterMap.mp he
  obtain ⟨-, cv, hcv, rfl⟩ := unsortedPair_eq_some.mp hpair
  simp [hcv]

/-- Clearing the pairs removes the marks of their keys, from whatever maps. -/
theorem mem_unsortedCache_clear (m' : CacheMaps) (order : Traversal Bytes Unit) :
    k ∈ (m'.clearUnsortedCacheSubset (m.unsortedPairs order start stop)
        .stateAlreadySorted).unsortedCache ↔ k ∈ m'.unsortedCache ∧ ¬ m.Moves start stop k :=
  mem_foldl_erase.trans (and_congr_right fun _ => not_congr mem_unsortedPairs)

/-- The keys get the values with which they were collected. -/
theorem sortedValue_clear_of_moves (m' : CacheMaps) (order : Traversal Bytes Unit) {cv : CValue}
    (hk : m.Moves start stop k) (hcv : m.cache.lookup k = some cv) :
    (m'.clearUnsortedCacheSubset (m.unsortedPairs order start stop)
      .stateAlreadySorted).sortedValue k = some cv.value := by
  refine (lookup_foldl_insert_of_mem (g := fun k => ((m.cache.lookup k).map CValue.value).getD none)
    (fun e he => snd_of_mem_unsortedPairs he) (mem_unsortedPairs.mpr hk)).trans ?_
  rw [hcv]
  rfl

theorem dirtyItems_of_reversed (h : reversed start stop = true) :
    m.dirtyItems order start stop = m :=
  if_pos h

/-- No key is in a reversed range. -/
theorem isKeyInDomain_of_reversed (h : reversed start stop = true) (k : Bytes) :
    isKeyInDomain k start stop = false := by
  simp only [reversed, Option.any_eq_true, decide_eq_true_eq] at h
  obtain ⟨stop, rfl, hlt⟩ := h
  rw [isKeyInDomain, Bool.and_eq_false_iff, decide_eq_false_iff_not, decide_eq_false_iff_not,
    not_le, not_lt]
  exact (lt_or_ge k (start.getD [])).imp_right hlt.le.trans

/-- The cache itself stays. -/
@[simp] theorem cache_dirtyItems : (m.dirtyItems order start stop).cache = m.cache := by
  unfold dirtyItems
  split <;> rfl

section NotReversed

variable (h : reversed start stop = false)

include h

variable {k : Bytes}

theorem dirtyItems_eq : m.dirtyItems order start stop =
    m.clearUnsortedCacheSubset (m.unsortedPairs order start stop) .stateAlreadySorted :=
  if_neg (by rw [h]; exact Bool.false_ne_true)

/-- The keys that are moved are no longer unsorted. -/
theorem mem_unsortedCache_dirtyItems :
    k ∈ (m.dirtyItems order start stop).unsortedCache ↔
      k ∈ m.unsortedCache ∧ ¬ m.Moves start stop k := by
  rw [dirtyItems_eq h]
  exact mem_unsortedCache_clear m order

/-- There is a tree to iterate over. -/
theorem exists_sortedCache_dirtyItems :
    ∃ tree, (m.dirtyItems order start stop).sortedCache = some tree :=
  ⟨_, by rw [dirtyItems_eq h]; rfl⟩

/-- Keys that are moved get their cached values. -/
theorem sortedValue_dirtyItems_of_moves {cv : CValue} (hk : m.Moves start stop k)
    (hcv : m.cache.lookup k = some cv) :
    (m.dirtyItems order start stop).sortedValue k = some cv.value := by
  rw [dirtyItems_eq h]
  exact sortedValue_clear_of_moves m order hk hcv

/-- The others keep what they have. -/
theorem sortedValue_dirtyItems_of_not_moves (hk : ¬ m.Moves start stop k) :
    (m.dirtyItems order start stop).sortedValue k = m.sortedValue k := by
  rw [dirtyItems_eq h]
  exact (lookup_foldl_insert_of_notMem fun hmem => hk (mem_unsortedPairs.mp hmem)).trans
    (m.lookup_getD_sortedCache k)

end NotReversed

/-- A key that is not moved stays as it is. -/
theorem dirtyItems_frame (order : Traversal Bytes Unit) (hk : ¬ m.Moves start stop k) :
    (m.dirtyItems order start stop).sortedValue k = m.sortedValue k ∧
      (k ∈ (m.dirtyItems order start stop).unsortedCache ↔ k ∈ m.unsortedCache) := by
  cases h : reversed start stop with
  | true => simp [dirtyItems_of_reversed h]
  | false =>
    rw [mem_unsortedCache_dirtyItems h, and_iff_left hk]
    exact ⟨sortedValue_dirtyItems_of_not_moves h hk, Iff.rfl⟩

/-- Sorting keeps the maps well formed. -/
theorem WF.dirtyItems (hwf : m.WF) (order : Traversal Bytes Unit) (start stop : Slice) :
    (m.dirtyItems order start stop).WF := by
  cases h : reversed start stop with
  | true => rwa [dirtyItems_of_reversed h]
  | false =>
    refine ⟨fun k cv hk => ?_, fun k v hk => ?_, fun k cv hk => ?_, fun k cv hk => ?_⟩
    · rw [cache_dirtyItems] at hk
      by_cases hmoves : m.Moves start stop k
      · exact .inr (sortedValue_dirtyItems_of_moves h hmoves hk)
      · rw [mem_unsortedCache_dirtyItems h, sortedValue_dirtyItems_of_not_moves h hmoves]
        exact (hwf.current k cv hk).imp_left fun hmem => ⟨hmem, hmoves⟩
    · rw [cache_dirtyItems]
      by_cases hmoves : m.Moves start stop k
      · exact hmoves.2.2
      · rw [sortedValue_dirtyItems_of_not_moves h hmoves] at hk
        exact hwf.cached k v hk
    · rw [cache_dirtyItems] at hk
      exact hwf.dirty k cv hk
    · rw [cache_dirtyItems] at hk
      exact hwf.valid k cv hk

/-- **After `dirtyItems`** the sorted cache has, in the range, the cached keys with their
cached values. -/
theorem WF.sortedValue_dirtyItems (hwf : m.WF) (order : Traversal Bytes Unit)
    (h : reversed start stop = false) (hk : isKeyInDomain k start stop = true) :
    (m.dirtyItems order start stop).sortedValue k = (m.cache.lookup k).map CValue.value := by
  cases hcv : m.cache.lookup k with
  | none =>
    have hnot : k ∉ m.cache := AList.lookup_eq_none.mp hcv
    rw [sortedValue_dirtyItems_of_not_moves h fun hmoves => hnot hmoves.2.2]
    refine Option.eq_none_iff_forall_ne_some.mpr fun v hv => ?_
    exact hnot (hwf.cached k v hv)
  | some cv =>
    by_cases hmem : k ∈ m.unsortedCache
    · have hmoves : m.Moves start stop k := ⟨hmem, hk, mem_iff_exists_lookup.mpr ⟨cv, hcv⟩⟩
      rw [sortedValue_dirtyItems_of_moves h hmoves hcv]
      rfl
    · rw [sortedValue_dirtyItems_of_not_moves h fun hmoves => hmem hmoves.1]
      exact (hwf.current k cv hcv).resolve_left hmem

end DirtyItems

end CacheMaps

/-! ### The store -/

/-- `cachekv.Store` over a parent store of type `β`. -/
structure CacheKVStore (β : Type) where
  maps : CacheMaps
  parent : β
  wf : maps.WF

namespace CacheKVStore

variable {β : Type}

/-- `NewStore`. -/
def newStore (parent : β) : CacheKVStore β := ⟨.new, parent, CacheMaps.wf_new⟩

/-- What reads depend on. -/
def toCacheKV (store : CacheKVStore β) : CacheKV β where
  cache := store.maps.cache
  parent := store.parent
  valid k hk := by
    obtain ⟨cv, hcv⟩ := mem_iff_exists_lookup.mp hk
    exact (store.wf.valid k cv hcv).1

/-- `setCacheValue`, with a key and a value that were checked. -/
def setCacheValue (store : CacheKVStore β) (key : Bytes) (value : Slice) (hkey : ValidKey key)
    (hvalue : ∀ v, value = some v → ValidValue v) : CacheKVStore β :=
  ⟨store.maps.setCacheValue key value true, store.parent, store.wf.setCacheValue hkey hvalue⟩

/-- `Set`. -/
def set (store : CacheKVStore β) (key : Bytes) (value : Slice) : Except Panic (CacheKVStore β) :=
  match hkey : assertValidKey key, hvalue : assertValidValue value with
  | .error e, _ => .error e
  | .ok (), .error e => .error e
  | .ok (), .ok () =>
    .ok (store.setCacheValue key value (validKey_of_assertValidKey hkey)
      (valid_of_assertValidValue hvalue))

/-- `Delete`. -/
def delete (store : CacheKVStore β) (key : Bytes) : Except Panic (CacheKVStore β) :=
  match hkey : assertValidKey key with
  | .error e => .error e
  | .ok () => .ok (store.setCacheValue key none (validKey_of_assertValidKey hkey) nofun)

/-- `Get`. -/
def get [BasicKVStore β] (store : CacheKVStore β) (key : Bytes) : Except Panic Slice :=
  store.toCacheKV.get key

/-- `Has`. -/
def has [BasicKVStore β] (store : CacheKVStore β) (key : Bytes) : Except Panic Bool := do
  let value ← store.get key
  pure value.isSome

/-- `dirtyItems`. -/
def dirtyItems (order : Traversal Bytes Unit) (start stop : Slice) (store : CacheKVStore β) :
    CacheKVStore β :=
  ⟨store.maps.dirtyItems order start stop, store.parent, store.wf.dirtyItems order start stop⟩

/-- `sortedCache.Copy()`, on a tree that may be `nil`. -/
def copySorted (store : CacheKVStore β) : Except Panic BTree :=
  store.maps.sortedCache.elim
    (.error (.error "invalid memory address or nil pointer dereference")) .ok

/-- `iterator`, which `Iterator` and `ReverseIterator` call. -/
def iterator [KVStore β] (order : Traversal Bytes Unit) (start stop : Slice) (ascending : Bool) :
    EStateM Panic (CacheKVStore β) CacheMergeIterator := do
  modify (dirtyItems order start stop)
  let isoSortedCache ← ofExcept (← MonadState.get).copySorted
  let parent ← ofExcept (KVStore.iterator (← MonadState.get).parent start stop ascending)
  let cache ← ofExcept (isoSortedCache.iterator start stop ascending)
  ofExcept (newCacheMergeIterator parent isoSortedCache cache ascending)

/-- A full traversal with an iterator. Every round uses up an entry of one of the two
iterators it merges. -/
def traverse [KVStore β] (order : Traversal Bytes Unit) (start stop : Slice) (ascending : Bool) :
    EStateM Panic (CacheKVStore β) (List (Bytes × Slice)) := do
  let it ← iterator order start stop ascending
  ofExcept (it.collect (it.cursors.parent.length + it.cursors.cache.length + 1))

/-- To make an iterator only moves keys to the sorted cache, also where it panics. -/
theorem snd_outcome_iterator [KVStore β] (order : Traversal Bytes Unit) (start stop : Slice)
    (ascending : Bool) (store : CacheKVStore β) :
    (outcome (iterator order start stop ascending) store).2 = store.dirtyItems order start stop :=
  snd_outcome_bind (fun _ => readOnly_get.bind fun _ => (readOnly_ofExcept _).bind fun _ =>
    readOnly_get.bind fun _ => (readOnly_ofExcept _).bind fun _ =>
      (readOnly_ofExcept _).bind fun _ => readOnly_ofExcept _) store

/-- A traversal only sorts the dirty items. -/
theorem snd_outcome_traverse [KVStore β] (order : Traversal Bytes Unit) (start stop : Slice)
    (ascending : Bool) (store : CacheKVStore β) :
    (outcome (traverse order start stop ascending) store).2 = store.dirtyItems order start stop :=
  (snd_outcome_bind (fun _ => readOnly_ofExcept _) store).trans
    (snd_outcome_iterator order start stop ascending store)

/-- What `Write` does to the parent for an entry of the cache. -/
def writeEntry [BasicKVStore β] (entry : (_ : Bytes) × CValue) : EStateM Panic β PUnit :=
  if entry.2.dirty then writeValue entry.1 entry.2.value else pure ⟨⟩

/-- The loop of `Write` over the cache. -/
def writeCache [BasicKVStore β] (order : Traversal Bytes CValue) (cache : GoMap Bytes CValue) :
    EStateM Panic β PUnit :=
  forM (order.visit cache) writeEntry

/-- `Write`. -/
def write [BasicKVStore β] (order : Traversal Bytes CValue) :
    EStateM Panic (CacheKVStore β) PUnit := do
  let cache := (← MonadState.get).maps.cache
  zoom CacheKVStore.parent (fun p store => { store with parent := p }) (writeCache order cache)

/-! ### Reads and writes -/

variable {store : CacheKVStore β} {key : Bytes} {e : Panic}

theorem set_of_valid {v : Bytes} (hkey : ValidKey key) (hv : ∀ w, some v = some w → ValidValue w) :
    store.set key (some v) = .ok (store.setCacheValue key (some v) hkey hv) := by
  unfold set
  split
  · next e he => rw [assertValidKey_eq_ok.mpr hkey] at he; cases he
  · next e _ he => rw [assertValidValue_eq_ok.mpr ⟨v, rfl, hv v rfl⟩] at he; cases he
  · rfl

/-- `Set` panics where one of its checks does. -/
theorem set_of_error {value : Slice}
    (h : (do assertValidKey key; assertValidValue value) = .error e) :
    store.set key value = .error e := by
  unfold set
  split
  · next e' he => rw [he] at h; cases h; rfl
  · next e' hkey he => rw [hkey, he] at h; cases h; rfl
  · next hkey hvalue => rw [hkey, hvalue] at h; cases h

theorem delete_of_valid (hkey : ValidKey key) :
    store.delete key = .ok (store.setCacheValue key none hkey nofun) := by
  unfold delete
  split
  · next e he => rw [assertValidKey_eq_ok.mpr hkey] at he; cases he
  · rfl

theorem delete_of_error (h : assertValidKey key = .error e) : store.delete key = .error e := by
  unfold delete
  split
  · next e' he => rw [he] at h; cases h; rfl
  · next he => rw [he] at h; cases h

section Lawful

variable [LawfulKVStore β]

/-- What the store holds: the cache over the parent store. -/
def contents (store : CacheKVStore β) (key : Bytes) : Slice := store.toCacheKV.contents key

/-- What is cached is what is shown. -/
theorem contents_setCacheValue (store : CacheKVStore β) (key : Bytes) (value : Slice)
    (hkey : ValidKey key) (hvalue : ∀ v, value = some v → ValidValue v) :
    (store.setCacheValue key value hkey hvalue).contents =
      Function.update store.contents key value := by
  funext k
  rw [Function.update_apply]
  exact store.toCacheKV.contents_setCacheValue key hkey value true k

/-- A read of a valid key. -/
theorem get_of_valid (hkey : ValidKey key) : store.get key = .ok (store.contents key) :=
  CacheKV.get_of_valid hkey

theorem get_of_error {e : Panic} (h : assertValidKey key = .error e) :
    store.get key = .error e := by
  rw [get, CacheKV.get, h]
  rfl

/-- **`Set`** panics where one of its checks does, and otherwise sets the key. -/
theorem set_cases (store : CacheKVStore β) (key : Bytes) (value : Slice) :
    (∃ e, (do assertValidKey key; assertValidValue value) = .error e ∧
        store.set key value = .error e) ∨
      (do assertValidKey key; assertValidValue value) = .ok () ∧
        ∃ store', store.set key value = .ok store' ∧ store'.parent = store.parent ∧
          store'.maps.cache = store.maps.cache.insert key ⟨value, true⟩ ∧
          store'.contents = Function.update store.contents key value := by
  cases hcheck : (do assertValidKey key; assertValidValue value) with
  | error e => exact .inl ⟨e, rfl, set_of_error hcheck⟩
  | ok u =>
    obtain ⟨hvalid, v, rfl, hvalue⟩ := valid_of_checks hcheck
    have hv : ∀ v', some v = some v' → ValidValue v' := fun _ h => Option.some.inj h ▸ hvalue
    exact .inr ⟨rfl, store.setCacheValue key (some v) hvalid hv, set_of_valid hvalid hv, rfl,
      rfl, store.contents_setCacheValue key (some v) hvalid hv⟩

/-- **`Delete`** panics where its check does, and otherwise removes the key. -/
theorem delete_cases (store : CacheKVStore β) (key : Bytes) :
    (∃ e, assertValidKey key = .error e ∧ store.delete key = .error e) ∨
      assertValidKey key = .ok () ∧
        ∃ store', store.delete key = .ok store' ∧ store'.parent = store.parent ∧
          store'.maps.cache = store.maps.cache.insert key ⟨none, true⟩ ∧
          store'.contents = Function.update store.contents key none := by
  cases hkey : assertValidKey key with
  | error e => exact .inl ⟨e, rfl, delete_of_error hkey⟩
  | ok u =>
    have hvalid := validKey_of_assertValidKey hkey
    exact .inr ⟨rfl, store.setCacheValue key none hvalid nofun, delete_of_valid hvalid, rfl,
      rfl, store.contents_setCacheValue key none hvalid nofun⟩

/-- **`Get`** panics where its check does, and otherwise returns what the store holds. -/
theorem get_cases (store : CacheKVStore β) (key : Bytes) :
    (∃ e, assertValidKey key = .error e ∧ store.get key = .error e) ∨
      assertValidKey key = .ok () ∧ store.get key = .ok (store.contents key) := by
  cases hkey : assertValidKey key with
  | error e => exact .inl ⟨e, rfl, get_of_error hkey⟩
  | ok u => exact .inr ⟨rfl, get_of_valid (validKey_of_assertValidKey hkey)⟩

/-- Sorting does not show. -/
@[simp] theorem contents_dirtyItems (store : CacheKVStore β) (order : Traversal Bytes Unit)
    (start stop : Slice) : (store.dirtyItems order start stop).contents = store.contents := by
  funext k
  simp only [contents, CacheKV.contents, toCacheKV, dirtyItems, CacheMaps.cache_dirtyItems]

/-! ### Iterators -/

section Iterator

variable {store store' : CacheKVStore β} {order : Traversal Bytes Unit} {start stop : Slice}
  {ascending : Bool} {tree : BTree}

/-- In the range, the tree that is iterated over has the cached values. -/
theorem contents_of_tree (htree : (store.dirtyItems order start stop).maps.sortedCache = some tree)
    {k : Bytes} (hk : isKeyInDomain k start stop = true) :
    store.contents k = (tree.lookup k).getD (LawfulBasicKVStore.contents store.parent k) := by
  have hrange : CacheMaps.reversed start stop = false := by
    by_contra hne
    rw [CacheMaps.isKeyInDomain_of_reversed (Bool.eq_true_of_not_eq_false hne)] at hk
    cases hk
  have hsorted := store.wf.sortedValue_dirtyItems order hrange hk
  have hlook : (store.maps.dirtyItems order start stop).sortedValue k = tree.lookup k := by
    rw [CacheMaps.sortedValue, show (store.maps.dirtyItems order start stop).sortedCache = some tree
      from htree]
    rfl
  rw [contents, CacheKV.contents, ← hlook, hsorted]
  rfl

/-- **What an iterator is**: it is ready, and has the entries of the range ahead, in order.
To make it only moves keys to the sorted cache. -/
theorem iterator_eq_ok {it : CacheMergeIterator}
    (h : (iterator order start stop ascending).run store = .ok it store') :
    store' = store.dirtyItems order start stop ∧ it.Ready ∧
      (it.entries.Pairwise fun a b => Before ascending a.1 b.1) ∧
      ∀ k v, (k, v) ∈ it.entries ↔
        isKeyInDomain k start stop = true ∧ store.contents k = some v := by
  rw [iterator, run_bind_of_ok (EStateM.run_modify _ store),
    run_bind_of_ok (EStateM.run_get _), run_ofExcept_bind_eq_ok] at h
  obtain ⟨tree, hcopy, h⟩ := h
  rw [run_bind_of_ok (EStateM.run_get _), run_ofExcept_bind_eq_ok] at h
  obtain ⟨parent, hparent, h⟩ := h
  obtain ⟨keys, hiter, h⟩ := run_ofExcept_bind_eq_ok.mp h
  obtain ⟨hit, rfl⟩ := run_ofExcept_eq_ok.mp h
  have htree : (store.dirtyItems order start stop).maps.sortedCache = some tree := by
    rw [copySorted] at hcopy
    cases hsorted : (store.dirtyItems order start stop).maps.sortedCache with
    | none => rw [hsorted] at hcopy; cases hcopy
    | some tree' =>
      rw [hsorted] at hcopy
      rw [Except.ok.inj hcopy]
  have hkeys : keys = BTree.newMemIterator start stop tree ascending := by
    rw [BTree.iterator] at hiter
    split at hiter
    · cases hiter
    · exact (Except.ok.inj hiter).symm
  subst hkeys
  have hsorted := LawfulKVStore.pairwise_iterator _ _ _ _ _ hparent
  have hkeysSorted := tree.pairwise_newMemIterator start stop ascending
  obtain ⟨it', hrefresh, hready, hentries⟩ := CacheMergeIterator.exists_refresh
    ⟨⟨parent, BTree.newMemIterator start stop tree ascending, ascending⟩, tree, false⟩
    ⟨hsorted, hkeysSorted, fun _ _ => trivial, fun _ hk => hk, fun _ _ hk => hk⟩
  obtain rfl : it' = it := Except.ok.inj (hrefresh.symm.trans hit)
  have hoverlay : it'.entries = overlay ascending tree.value parent
    (BTree.newMemIterator start stop tree ascending) := hentries
  rw [hoverlay]
  refine ⟨rfl, hready, pairwise_overlay hsorted hkeysSorted, fun k v => ?_⟩
  rw [mem_overlay hsorted hkeysSorted, BTree.mem_newMemIterator,
    LawfulKVStore.mem_iterator _ _ _ _ _ hparent]
  by_cases hdom : isKeyInDomain k start stop = true
  · rw [contents_of_tree htree hdom, BTree.value]
    cases hlook : tree.lookup k with
    | none => simp [hdom, AList.lookup_eq_none.mp hlook, dirtyItems]
    | some value =>
      simp [hdom, mem_iff_exists_lookup.mpr ⟨value, hlook⟩]
  · simp [hdom]

/-- An iterator is made over bounds that are `nil` or non-empty once there is a tree to copy. -/
theorem exists_iterator_of_tree {store : CacheKVStore β} (ascending : Bool)
    (htree : (store.dirtyItems order start stop).maps.sortedCache = some tree)
    (hstart : start ≠ some []) (hstop : stop ≠ some []) :
    ∃ it, (iterator order start stop ascending).run store =
      .ok it (store.dirtyItems order start stop) := by
  obtain ⟨parent, hparent⟩ :=
    LawfulKVStore.exists_iterator store.parent start stop ascending hstart hstop
  obtain ⟨it, hit, -⟩ := CacheMergeIterator.exists_refresh
    ⟨⟨parent, BTree.newMemIterator start stop tree ascending, ascending⟩, tree, false⟩
    ⟨LawfulKVStore.pairwise_iterator _ _ _ _ _ hparent,
      tree.pairwise_newMemIterator start stop ascending, fun _ _ => trivial, fun _ hk => hk,
      fun _ _ hk => hk⟩
  refine ⟨it, ?_⟩
  rw [iterator, run_bind_of_ok (EStateM.run_modify _ store), run_bind_of_ok (EStateM.run_get _),
    run_ofExcept_bind_eq_ok]
  refine ⟨tree, ?_, ?_⟩
  · rw [copySorted, htree]
    rfl
  · rw [run_bind_of_ok (EStateM.run_get _), run_ofExcept_bind_eq_ok]
    refine ⟨parent, hparent, ?_⟩
    rw [run_ofExcept_bind_eq_ok]
    exact ⟨_, if_neg (not_or.mpr ⟨hstart, hstop⟩), run_ofExcept_eq_ok.mpr ⟨hit, rfl⟩⟩

variable (store : CacheKVStore β) (order : Traversal Bytes Unit) (ascending : Bool)
  (hrange : CacheMaps.reversed start stop = false) (hstart : start ≠ some [])
  (hstop : stop ≠ some [])
include hrange hstart hstop

/-- An iterator is made for every range that is not reversed and whose bounds are `nil` or
non-empty. -/
theorem exists_iterator : ∃ it, (iterator order start stop ascending).run store =
      .ok it (store.dirtyItems order start stop) := by
  obtain ⟨tree, htree⟩ : ∃ tree, (store.maps.dirtyItems order start stop).sortedCache = some tree :=
    CacheMaps.exists_sortedCache_dirtyItems hrange
  exact exists_iterator_of_tree ascending htree hstart hstop

/-- **A full traversal** shows the entries of the range in order. -/
theorem exists_traverse :
    ∃ l : List (Bytes × Bytes), (traverse order start stop ascending).run store =
        .ok (l.map fun e => (e.1, some e.2)) (store.dirtyItems order start stop) ∧
      (l.Pairwise fun a b => Before ascending a.1 b.1) ∧
      ∀ k v, (k, v) ∈ l ↔ isKeyInDomain k start stop = true ∧ store.contents k = some v := by
  obtain ⟨it, hrun⟩ := store.exists_iterator order ascending hrange hstart hstop
  obtain ⟨-, hready, hsorted, hmem⟩ := iterator_eq_ok hrun
  refine ⟨it.entries, ?_, hsorted, hmem⟩
  obtain ⟨L, hwithin⟩ := hready.within
  have hlength : it.entries.length ≤ it.cursors.parent.length + it.cursors.cache.length :=
    length_overlay_le hwithin.base_sorted hwithin.keys_sorted
  rw [traverse, run_bind_of_ok hrun, hready.collect (Nat.lt_succ_of_le hlength)]
  rfl

end Iterator

/-! ### Writing back -/

/-- A cached entry is what the parent holds after it was written. -/
theorem run_writeEntry (store : CacheKVStore β) {e : (_ : Bytes) × CValue}
    (he : store.maps.cache.lookup e.1 = some e.2) (p : β) :
    ∃ p', (writeEntry e).run p = .ok ⟨⟩ p' ∧ ∀ k, LawfulBasicKVStore.contents p' k =
      if k = e.1 then e.2.value else LawfulBasicKVStore.contents p k := by
  obtain ⟨hkey, hvalue⟩ := store.wf.valid e.1 e.2 he
  rw [writeEntry, if_pos (store.wf.dirty e.1 e.2 he)]
  exact run_writeValue hkey hvalue p

/-- **`Write`** leaves the contents of the store in the parent, and the cache as it is. -/
theorem run_write (store : CacheKVStore β) (order : Traversal Bytes CValue) :
    ∃ p', (write order).run store = .ok ⟨⟩ { store with parent := p' } ∧
      LawfulBasicKVStore.contents p' = store.contents ∧
      ({ store with parent := p' } : CacheKVStore β).contents = store.contents := by
  have hbody : ∀ e ∈ order.visit store.maps.cache, ∀ p : β, True →
      ∃ p', (writeEntry e).run p = .ok ⟨⟩ p' ∧ True ∧ ∀ k, LawfulBasicKVStore.contents p' k =
        if k = e.1 then ((store.maps.cache.lookup k).map CValue.value).getD none
        else LawfulBasicKVStore.contents p k := by
    intro e he p _
    have hcv : store.maps.cache.lookup e.1 = some e.2 := mem_entries_iff.mp (order.mem_visit.mp he)
    obtain ⟨p', hrun, hcontents⟩ := store.run_writeEntry hcv p
    refine ⟨p', hrun, trivial, fun k => ?_⟩
    rw [hcontents]
    split
    · next hk => rw [hk, hcv]; rfl
    · rfl
  obtain ⟨p', hrun, -, hlook⟩ := forM_rewrites (s := store.parent) (fun _ => True)
    LawfulBasicKVStore.contents Sigma.fst
    (fun k _ => ((store.maps.cache.lookup k).map CValue.value).getD none) (fun _ _ => rfl) hbody
    trivial
  have hmem : ∀ k, k ∈ (order.visit store.maps.cache).map Sigma.fst ↔ k ∈ store.maps.cache := by
    intro k
    rw [((order.perm store.maps.cache).map Sigma.fst).mem_iff]
    rfl
  have hparent : LawfulBasicKVStore.contents p' = store.contents := by
    funext k
    rw [hlook, contents, CacheKV.contents]
    cases hcv : store.maps.cache.lookup k with
    | none =>
      rw [if_neg fun h => AList.lookup_eq_none.mp hcv ((hmem k).mp h)]
      simp [toCacheKV, hcv]
    | some cv =>
      rw [if_pos ((hmem k).mpr (mem_iff_exists_lookup.mpr ⟨cv, hcv⟩))]
      simp [toCacheKV, hcv]
  refine ⟨p', ?_, hparent, ?_⟩
  · rw [write, run_bind_of_ok (EStateM.run_get store)]
    exact run_zoom_eq_ok.mpr ⟨p', hrun, rfl⟩
  · funext k
    rw [contents, CacheKV.contents]
    simp only [toCacheKV, hparent]
    rw [contents, CacheKV.contents]
    simp only [toCacheKV]
    cases store.maps.cache.lookup k <;> rfl

end Lawful

end CacheKVStore

end MelodiaStore
