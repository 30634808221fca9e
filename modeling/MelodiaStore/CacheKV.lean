import MelodiaStore.Types

/-!
# The Cache Store

The reads and writes of `cachekv/store.go`: a cache of values over a parent store, where a
cached `nil` stands for a deletion. Writes stay in the cache, whose keys are therefore valid.
Reads ask the cache first, so that an entry of the cache shadows whatever is written to the
parent store directly.

## Main results

* The instance of `LawfulBasicKVStore`: a cache store over a lawful store is lawful.
-/

namespace MelodiaStore

/-- `cValue`. -/
structure CValue where
  value : Slice
  dirty : Bool

/-- `cachekv.Store` over a parent store of type `β`. -/
structure CacheKV (β : Type) where
  cache : GoMap Bytes CValue
  parent : β
  valid : ∀ k ∈ cache, ValidKey k

namespace CacheKV

variable {β : Type} {store : CacheKV β} {key v : Bytes}

/-- `NewStore`. -/
def newStore (parent : β) : CacheKV β :=
  ⟨∅, parent, fun k hk => absurd hk (AList.notMem_empty k)⟩

/-- `setCacheValue`, on a key that was checked. -/
def setCacheValue (store : CacheKV β) (key : Bytes) (hkey : ValidKey key) (value : Slice)
    (dirty : Bool) : CacheKV β where
  cache := store.cache.insert key ⟨value, dirty⟩
  parent := store.parent
  valid k hk := by
    rcases (AList.mem_insert store.cache).mp hk with rfl | hk
    · exact hkey
    · exact store.valid k hk

/-- `Set`. -/
def set (store : CacheKV β) (key : Bytes) (value : Slice) : Except Panic (CacheKV β) :=
  match hkey : assertValidKey key, assertValidValue value with
  | .error e, _ => .error e
  | .ok (), .error e => .error e
  | .ok (), .ok () => .ok (store.setCacheValue key (validKey_of_assertValidKey hkey) value true)

/-- `Delete`. -/
def delete (store : CacheKV β) (key : Bytes) : Except Panic (CacheKV β) :=
  match hkey : assertValidKey key with
  | .error e => .error e
  | .ok () => .ok (store.setCacheValue key (validKey_of_assertValidKey hkey) none true)

section Get

variable [BasicKVStore β]

/-- `getFromCache`. -/
def getFromCache (store : CacheKV β) (key : Bytes) : Except Panic Slice :=
  match store.cache.lookup key with
  | some cv => .ok cv.value
  | none => BasicKVStore.get store.parent key

/-- `Get`. -/
def get (store : CacheKV β) (key : Bytes) : Except Panic Slice := do
  assertValidKey key
  store.getFromCache key

instance : BasicKVStore (CacheKV β) where
  get := get
  set := set
  delete := delete

end Get

/-! ### The contract -/

/-- What `Set` caches. -/
theorem set_of_valid (hkey : ValidKey key) (hv : ValidValue v) :
    store.set key (some v) = .ok (store.setCacheValue key hkey (some v) true) := by
  unfold set
  split
  · next e he => rw [assertValidKey_eq_ok.mpr hkey] at he; cases he
  · next e _ he => rw [assertValidValue_eq_ok.mpr ⟨v, rfl, hv⟩] at he; cases he
  · rfl

/-- What `Delete` caches. -/
theorem delete_of_valid (hkey : ValidKey key) :
    store.delete key = .ok (store.setCacheValue key hkey none true) := by
  unfold delete
  split
  · next e he => rw [assertValidKey_eq_ok.mpr hkey] at he; cases he
  · rfl

variable [LawfulBasicKVStore β]

/-- What a cache store holds: the cache over the parent store. -/
def contents (store : CacheKV β) (key : Bytes) : Slice :=
  ((store.cache.lookup key).map CValue.value).getD (LawfulBasicKVStore.contents store.parent key)

/-- What is cached is what is shown. -/
theorem contents_setCacheValue (store : CacheKV β) (key : Bytes) (hkey : ValidKey key)
    (value : Slice) (dirty : Bool) (k : Bytes) :
    (store.setCacheValue key hkey value dirty).contents k =
      if k = key then value else store.contents k := by
  simp only [contents, setCacheValue, lookup_insert_ite]
  split <;> rfl

/-- A read of a valid key. -/
theorem get_of_valid (hkey : ValidKey key) : store.get key = .ok (store.contents key) := by
  rw [get, assertValidKey_eq_ok.mpr hkey]
  change store.getFromCache key = _
  unfold getFromCache contents
  cases store.cache.lookup key with
  | some cv => rfl
  | none => exact LawfulBasicKVStore.get_eq store.parent key hkey

/-- A key that holds a value is cached, or the parent store's. -/
theorem valid_of_contents (h : store.contents key = some v) : ValidKey key := by
  unfold contents at h
  cases hc : store.cache.lookup key with
  | some cv => exact store.valid key (mem_iff_exists_lookup.mpr ⟨cv, hc⟩)
  | none =>
    rw [hc] at h
    exact LawfulBasicKVStore.valid_of_contents store.parent key v h

instance : LawfulBasicKVStore (CacheKV β) where
  contents := contents
  valid_of_contents _ _ _ := valid_of_contents
  get_eq _ _ := get_of_valid
  set_eq store key v hkey hv :=
    ⟨_, set_of_valid hkey hv, store.contents_setCacheValue key hkey (some v) true⟩
  delete_eq store key hkey :=
    ⟨_, delete_of_valid hkey, store.contents_setCacheValue key hkey none true⟩

end CacheKV

end MelodiaStore
