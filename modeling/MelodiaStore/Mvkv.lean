import MelodiaStore.Bookkeeping
import MelodiaStore.ListStore

/-!
# The Version Indexed Store

The operations of `multiversion/mvkv.go`: the store through which one execution of a
transaction reads and writes. Reads go to its own writes first, then to what it has read
before, then to the versions of earlier transactions, and last to the parent store. What
was read from outside is recorded in the read set, which validation compares later.

Both multi-version stores implement the interface `MultiVersionStore`, so the operations
are written over it. A computation works on the pair of the version indexed store and the
multi-version store below it (`Mvkv`).

## Main results

* `run_get_eq_ok`: what `Get` returns and records over a `Store`, by the place the value comes
  from.
* `Recording`: the version indexed stores an execution can produce, whatever happens to the
  store below between its steps; `Recording.valid` and `Recording.ne_nil`.
-/

namespace MelodiaStore

/-! ### The interface of multi-version stores -/

/-- The methods of `MultiVersionStore` that a version indexed store calls, together with
the two reads it makes of the parent store. The first argument of `setWriteset` is the
environment variable that only `Store` looks at. -/
class MultiVersionStore (μ : Type) where
  getLatestBeforeIndexExpansion : ℕ → Bytes → EStateM Panic μ (Option ValueItem)
  collectIteratorItems : μ → ℕ → Except Panic MemDB
  setWriteset : Bool → ℕ → ℤ → WriteSet → ℕ → EStateM Panic μ PUnit
  setEstimatedWriteset : ℕ → ℤ → WriteSet → EStateM Panic μ PUnit
  setReadset : ℕ → ReadSet → EStateM Panic μ PUnit
  setIterateset : ℕ → Iterateset → EStateM Panic μ PUnit
  parentGet : μ → Bytes → Except Panic Slice
  parentIterator : μ → Slice → Slice → Bool → Except Panic (List (Bytes × Bytes))

/-- `Store.GetLatestBeforeIndexExpansion`, which is `GetLatestBeforeIndex`. -/
def Store.getLatestBeforeIndexExpansion {π : Type} (index : ℕ) (key : Bytes) :
    EStateM Panic (Store π) (Option ValueItem) := do
  ofExcept ((← get).getLatestBeforeIndex index key)

instance {π : Type} [KVStore π] : MultiVersionStore (Store π) where
  getLatestBeforeIndexExpansion := Store.getLatestBeforeIndexExpansion
  collectIteratorItems s index := .ok (s.collectIteratorItems index)
  setWriteset := Store.setWriteset
  setEstimatedWriteset := Store.setEstimatedWriteset
  setReadset := Store.setReadset
  setIterateset := Store.setIterateset
  parentGet s key := BasicKVStore.get s.parentStore key
  parentIterator s start stop ascending := KVStore.iterator s.parentStore start stop ascending

instance {π : Type} [KVStore π] : MultiVersionStore (ListStore π) where
  getLatestBeforeIndexExpansion index key := fun s =>
    .ok (s.getLatestBeforeIndexExpansion index key).1 (s.getLatestBeforeIndexExpansion index key).2
  collectIteratorItems := ListStore.collectIteratorItems
  setWriteset _ index inc ws _ := ListStore.setWriteset index inc ws
  setEstimatedWriteset := ListStore.setEstimatedWriteset
  setReadset := ListStore.setReadset
  setIterateset := ListStore.setIterateset
  parentGet s key := BasicKVStore.get s.parentStore key
  parentIterator s start stop ascending := KVStore.iterator s.parentStore start stop ascending

/-! ### The version indexed store -/

/-- A buffered channel. -/
structure Channel (α : Type) where
  capacity : ℕ
  buffer : List α

/-- A send in a `select` with a default: a full channel drops the value. -/
def Channel.trySend {α : Type} (c : Channel α) (a : α) : Channel α :=
  if c.buffer.length < c.capacity then { c with buffer := c.buffer ++ [a] } else c

/-- `VersionIndexedStore`. The trackers of its iterators are kept by position in
`iterateset`. -/
structure VersionIndexedStore where
  readset : ReadSet
  writeset : WriteSet
  iterateset : Iterateset
  transactionIndex : ℕ
  incarnation : ℤ
  abortChannel : Channel Abort
  totalTask : ℕ

/-- `NewVersionIndexedStore`. -/
def newVersionIndexedStore (transactionIndex : ℕ) (incarnation : ℤ)
    (abortChannel : Channel Abort) (totalTask : ℕ) : VersionIndexedStore :=
  ⟨∅, ∅, [], transactionIndex, incarnation, abortChannel, totalTask⟩

/-- A version indexed store and the multi-version store below it. -/
structure Mvkv (μ : Type) where
  store : VersionIndexedStore
  multiVersionStore : μ

/-- `UpdateReadSet` on the values read for a key: a value is added unless an equal one is
there. -/
def addValue (values : List Slice) (value : Slice) : List Slice :=
  if values.any (bytesEqual value) then values else values ++ [value]

/-- `UpdateReadSet` on a read set. -/
def addRead (readset : ReadSet) (key : Bytes) (value : Slice) : ReadSet :=
  readset.insert key (addValue ((readset.lookup key).getD []) value)

namespace VersionIndexedStore

variable {μ : Type} [MultiVersionStore μ]

/-- Change the version indexed store. -/
def modifyStore (f : VersionIndexedStore → VersionIndexedStore) : EStateM Panic (Mvkv μ) PUnit :=
  modify fun s => { s with store := f s.store }

/-- Run a computation on the multi-version store. -/
def onMultiVersionStore {α : Type} (x : EStateM Panic μ α) : EStateM Panic (Mvkv μ) α :=
  zoom Mvkv.multiVersionStore (fun m s => { s with multiVersionStore := m }) x

/-- `UpdateReadSet`. -/
def updateReadSet (key : Bytes) (value : Slice) : EStateM Panic (Mvkv μ) PUnit :=
  modifyStore fun store => { store with readset := addRead store.readset key value }

/-- `WriteAbort`. -/
def writeAbort (abort : Abort) : EStateM Panic (Mvkv μ) PUnit :=
  modifyStore fun store => { store with abortChannel := store.abortChannel.trySend abort }

/-- `parseValueAndUpdateReadset`. -/
def parseValueAndUpdateReadset (key : Bytes) (mvsValue : ValueItem) :
    EStateM Panic (Mvkv μ) Slice := do
  let value := if mvsValue.isDeleted then none else mvsValue.value
  updateReadSet key value
  pure value

/-- `Get`. -/
def get (key : Bytes) : EStateM Panic (Mvkv μ) Slice := do
  ofExcept (assertValidKey key)
  let store := (← MonadState.get).store
  match store.writeset.lookup key with
  | some cacheValue => pure cacheValue
  | none =>
    match store.readset.lookup key with
    | some (readsetVal :: _) => pure readsetVal
    | some [] => throw .indexOutOfRange
    | none =>
      match ← onMultiVersionStore (MultiVersionStore.getLatestBeforeIndexExpansion
          store.transactionIndex key) with
      | some mvsValue =>
        if mvsValue.isEstimate then do
          let abort := newEstimateAbort mvsValue.index
          writeAbort abort
          throw (.abort abort)
        else
          parseValueAndUpdateReadset key mvsValue
      | none =>
        let parentValue ← ofExcept (MultiVersionStore.parentGet
          (← MonadState.get).multiVersionStore key)
        updateReadSet key parentValue
        pure parentValue

/-- `Has`. -/
def has (key : Bytes) : EStateM Panic (Mvkv μ) Bool := do
  pure (← get key).isSome

/-- `setValue`. -/
def setValue (key : Bytes) (value : Slice) : EStateM Panic (Mvkv μ) PUnit := do
  ofExcept (assertValidKey key)
  modifyStore fun store => { store with writeset := store.writeset.insert key value }

/-- `Set`; unlike other stores it does not check the value. -/
def set (key : Bytes) (value : Slice) : EStateM Panic (Mvkv μ) PUnit := do
  ofExcept (assertValidKey key)
  setValue key value

/-- `Delete`. -/
def delete (key : Bytes) : EStateM Panic (Mvkv μ) PUnit := do
  ofExcept (assertValidKey key)
  setValue key none

/-- `WriteToMultiVersionStore`: an empty read set or iterate set is not published. -/
def writeToMultiVersionStore (versionList : Bool) : EStateM Panic (Mvkv μ) PUnit := do
  let store := (← MonadState.get).store
  onMultiVersionStore (MultiVersionStore.setWriteset versionList store.transactionIndex
    store.incarnation store.writeset store.totalTask)
  if store.readset.keys.length > 0 then
    onMultiVersionStore (MultiVersionStore.setReadset store.transactionIndex store.readset)
  if store.iterateset.length > 0 then
    onMultiVersionStore (MultiVersionStore.setIterateset store.transactionIndex store.iterateset)

/-- `WriteEstimatesToMultiVersionStore`. -/
def writeEstimatesToMultiVersionStore : EStateM Panic (Mvkv μ) PUnit := do
  let store := (← MonadState.get).store
  onMultiVersionStore (MultiVersionStore.setEstimatedWriteset store.transactionIndex
    store.incarnation store.writeset)

end VersionIndexedStore

/-! ### What `Get` returns over a `Store` -/

/-- The value `Get` finds outside the version indexed store: that of the latest earlier
version, or else that of the parent store. -/
def Store.fetch {π : Type} [KVStore π] (s : Store π) (index : ℕ) (key : Bytes) :
    Except Panic Slice :=
  match s.getLatestBeforeIndex index key with
  | .error e => .error e
  | .ok (some mvsValue) =>
    if mvsValue.isEstimate then .error (.abort (newEstimateAbort mvsValue.index))
    else .ok mvsValue.value
  | .ok none => BasicKVStore.get s.parentStore key

/-- A deletion has no value, so `parseValueAndUpdateReadset` returns the value. -/
theorem ValueItem.value_of_isDeleted (e : ValueItem) :
    (if e.isDeleted then none else e.value) = e.value := by
  split
  · next h =>
    rw [ValueItem.isDeleted, Bool.and_eq_true] at h
    exact (Option.isNone_iff_eq_none.mp h.1).symm
  · rfl

/-- The version indexed store after a value was read from outside. -/
def VersionIndexedStore.withRead (store : VersionIndexedStore) (key : Bytes) (value : Slice) :
    VersionIndexedStore :=
  { store with readset := addRead store.readset key value }

section Get

variable {π : Type} [KVStore π] {store store' : VersionIndexedStore} {s s' : Store π}
  {key : Bytes} {value : Slice}

/-- The lookup in the versions of a `Store` leaves everything as it is. -/
theorem run_lookup_store (index : ℕ) :
    (VersionIndexedStore.onMultiVersionStore
      (MultiVersionStore.getLatestBeforeIndexExpansion index key)).run
        (⟨store, s⟩ : Mvkv (Store π)) =
      match s.getLatestBeforeIndex index key with
      | .ok v => .ok v ⟨store, s⟩
      | .error e => .error e ⟨store, s⟩ := by
  have hrun : (MultiVersionStore.getLatestBeforeIndexExpansion index key :
      EStateM Panic (Store π) (Option ValueItem)).run s =
        match s.getLatestBeforeIndex index key with
        | .ok v => .ok v s
        | .error e => .error e s := by
    change (Store.getLatestBeforeIndexExpansion index key).run s = _
    rw [Store.getLatestBeforeIndexExpansion, run_bind_of_ok (EStateM.run_get s)]
    cases s.getLatestBeforeIndex index key <;> rfl
  rw [VersionIndexedStore.onMultiVersionStore, run_zoom, hrun]
  cases s.getLatestBeforeIndex index key <;> rfl

/-- **`Get` over a `Store`**: an own write, else the first value read before, else what is
fetched, which is recorded. -/
theorem run_get_eq_ok :
    (VersionIndexedStore.get key).run (⟨store, s⟩ : Mvkv (Store π)) = .ok value ⟨store', s'⟩ ↔
      ValidKey key ∧ s' = s ∧
      (store.writeset.lookup key = some value ∧ store' = store ∨
        store.writeset.lookup key = none ∧
          (∃ values, store.readset.lookup key = some (value :: values)) ∧ store' = store ∨
        store.writeset.lookup key = none ∧ store.readset.lookup key = none ∧
          s.fetch store.transactionIndex key = .ok value ∧ store' = store.withRead key value) := by
  -- the value returned and the state reached, once there is a value `v`
  have hok : ∀ (v : Slice) (st : VersionIndexedStore), (EStateM.Result.ok v ⟨st, s⟩ :
      EStateM.Result Panic (Mvkv (Store π)) Slice) = .ok value ⟨store', s'⟩ ↔
        s' = s ∧ v = value ∧ store' = st := by
    intro v st
    constructor
    · intro h
      cases h
      exact ⟨rfl, rfl, rfl⟩
    · rintro ⟨rfl, rfl, rfl⟩
      rfl
  rw [VersionIndexedStore.get, run_ofExcept_bind_eq_ok, Unique.exists_iff]
  refine and_congr assertValidKey_eq_ok ?_
  rw [run_bind_of_ok (EStateM.run_get _)]
  cases hw : store.writeset.lookup key with
  | some v =>
    simp only [hw]
    exact (hok v store).trans (by simp)
  | none =>
    cases hr : store.readset.lookup key with
    | some values =>
      simp only [hw, hr]
      cases values with
      | cons v values => exact (hok v store).trans (by simp)
      | nil => exact iff_of_false (fun h => nomatch h) (by simp)
    | none =>
      simp only [hw, hr]
      rw [EStateM.run_bind, run_lookup_store, Store.fetch]
      cases s.getLatestBeforeIndex store.transactionIndex key with
      | error e => simp
      | ok found =>
        cases found with
        | none =>
          dsimp only
          rw [run_bind_of_ok (EStateM.run_get _)]
          change (ofExcept (BasicKVStore.get s.parentStore key) >>= _).run _ = _ ↔ _
          cases BasicKVStore.get s.parentStore key with
          | error e =>
            rw [EStateM.run_bind, run_ofExcept_error]
            simp
          | ok v => exact (hok v (store.withRead key v)).trans (by simp +contextual)
        | some v =>
          dsimp only
          split
          · exact iff_of_false (fun h => nomatch h) (by simp)
          · rw [VersionIndexedStore.parseValueAndUpdateReadset,
              ValueItem.value_of_isDeleted]
            exact (hok v.value (store.withRead key v.value)).trans (by simp +contextual)

/-- A key that was neither written nor read is fetched, and the value is recorded. -/
theorem run_get_of_absent (hkey : ValidKey key) (hw : store.writeset.lookup key = none)
    (hr : store.readset.lookup key = none) :
    (VersionIndexedStore.get key).run (⟨store, s⟩ : Mvkv (Store π)) = .ok value ⟨store', s'⟩ ↔
      s.fetch store.transactionIndex key = .ok value ∧ s' = s ∧
        store' = store.withRead key value := by
  simp [run_get_eq_ok, hkey, hw, hr, and_left_comm]

end Get

/-- **What `WriteToMultiVersionStore` does to a `Store`**: the write set is published, and
the read set and the iterate set where they are not empty. -/
theorem run_writeToMultiVersionStore {π : Type} [KVStore π] {versionList : Bool}
    {store : VersionIndexedStore} {s : Store π} {m : Mvkv (Store π)}
    (h : (VersionIndexedStore.writeToMultiVersionStore versionList).run
      (⟨store, s⟩ : Mvkv (Store π)) = .ok ⟨⟩ m) :
    ∃ s₁, (Store.setWriteset versionList store.transactionIndex store.incarnation store.writeset
        store.totalTask).run s = .ok ⟨⟩ s₁ ∧
      m.multiVersionStore =
        { s₁ with
          txReadSets := if store.readset.keys.length > 0 then
            s₁.txReadSets.insert store.transactionIndex store.readset else s₁.txReadSets
          txIterateSets := if store.iterateset.length > 0 then
            s₁.txIterateSets.insert store.transactionIndex store.iterateset
            else s₁.txIterateSets } := by
  rw [VersionIndexedStore.writeToMultiVersionStore, run_bind_of_ok (EStateM.run_get _),
    run_bind_eq_ok] at h
  obtain ⟨⟨⟩, m₁, hpublish, h⟩ := h
  obtain ⟨s₁, hset, rfl⟩ := run_zoom_eq_ok.mp hpublish
  refine ⟨s₁, hset, ?_⟩
  by_cases hread : store.readset.keys.length > 0 <;>
    by_cases hiterate : store.iterateset.length > 0
  all_goals
    simp only [hread, hiterate, if_true, if_false] at h ⊢
    cases h
    rfl

/-! ### Recorded executions -/

section Recording

variable {π : Type} [KVStore π] {store : VersionIndexedStore} {index : ℕ}

/-- `Set` and `Delete` change the write set only. -/
theorem run_set_eq_ok {μ : Type} [MultiVersionStore μ] {s : μ} {key : Bytes} {value : Slice}
    {m : Mvkv μ} :
    (VersionIndexedStore.set key value).run ⟨store, s⟩ = .ok ⟨⟩ m ↔
      ValidKey key ∧ m = ⟨{ store with writeset := store.writeset.insert key value }, s⟩ := by
  unfold VersionIndexedStore.set VersionIndexedStore.setValue
  simp only [run_bind_eq_ok, run_ofExcept_eq_ok]
  constructor
  · rintro ⟨⟨⟩, _, ⟨hkey, rfl⟩, ⟨⟩, _, ⟨-, rfl⟩, hset⟩
    cases hset
    exact ⟨assertValidKey_eq_ok.mp hkey, rfl⟩
  · rintro ⟨hkey, rfl⟩
    rw [← assertValidKey_eq_ok] at hkey
    exact ⟨⟨⟩, _, ⟨hkey, rfl⟩, ⟨⟩, _, ⟨hkey, rfl⟩, rfl⟩

variable (π) in
/-- The version indexed stores that executions of a transaction produce. The `Store` below
may be a different one at every step. An iterator records the entries of the parent store
it shows. -/
inductive Recording (index : ℕ) : VersionIndexedStore → Prop
  | new (incarnation : ℤ) (abortChannel : Channel Abort) (totalTask : ℕ) :
      Recording index (newVersionIndexedStore index incarnation abortChannel totalTask)
  | get {store store' : VersionIndexedStore} {s s' : Store π} {key : Bytes} {value : Slice} :
      Recording index store →
      (VersionIndexedStore.get key).run (⟨store, s⟩ : Mvkv (Store π)) = .ok value ⟨store', s'⟩ →
      Recording index store'
  | set {store store' : VersionIndexedStore} {s s' : Store π} {key : Bytes} {value : Slice} :
      Recording index store →
      (VersionIndexedStore.set key value).run (⟨store, s⟩ : Mvkv (Store π)) =
        .ok ⟨⟩ ⟨store', s'⟩ →
      Recording index store'
  | iterate {store : VersionIndexedStore} {key : Bytes} {value : Slice} :
      Recording index store → ValidKey key → Recording index (store.withRead key value)

/-- The keys of a recorded read set are valid. -/
theorem Recording.valid (h : Recording π index store) : ∀ k ∈ store.readset, ValidKey k := by
  have hadd : ∀ {store : VersionIndexedStore} {key : Bytes} {value : Slice},
      (∀ k ∈ store.readset, ValidKey k) → ValidKey key →
      ∀ k ∈ (store.withRead key value).readset, ValidKey k := by
    intro store key value ih hkey k hk
    rcases (AList.mem_insert _).mp hk with rfl | hk
    · exact hkey
    · exact ih k hk
  induction h with
  | new _ _ _ => exact fun k hk => absurd hk (AList.notMem_empty k)
  | get _ hrun ih =>
    obtain ⟨hkey, -, ⟨-, rfl⟩ | ⟨-, -, rfl⟩ | ⟨-, -, -, rfl⟩⟩ := run_get_eq_ok.mp hrun
    · exact ih
    · exact ih
    · exact hadd ih hkey
  | set _ hrun ih =>
    obtain ⟨-, hm⟩ := run_set_eq_ok.mp hrun
    cases hm
    exact ih
  | iterate _ hkey ih => exact hadd ih hkey

/-- A recorded execution keeps its transaction index. -/
theorem Recording.transactionIndex_eq (h : Recording π index store) :
    store.transactionIndex = index := by
  induction h with
  | new _ _ _ => rfl
  | get _ hrun ih =>
    obtain ⟨-, -, ⟨-, rfl⟩ | ⟨-, -, rfl⟩ | ⟨-, -, -, rfl⟩⟩ := run_get_eq_ok.mp hrun
    all_goals exact ih
  | set _ hrun ih =>
    obtain ⟨-, hm⟩ := run_set_eq_ok.mp hrun
    cases hm
    exact ih
  | iterate _ _ ih => exact ih

end Recording

end MelodiaStore
