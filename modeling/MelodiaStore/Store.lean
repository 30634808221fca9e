import Mathlib.Data.Finset.Card
import MelodiaStore.Versions

/-!
# The Multi-Version Store

The operations of `multiversion/store.go`. A `Store` keeps two maps that index the same
data in opposite ways, from keys to their versions and from transactions to the keys they
have written, together with the read sets and iterate sets that validation replays.

Go traverses maps in an unspecified order. Here a map is a list of entries with distinct
keys, and the order of that list stands for the order of a traversal.

The environment variable `versionList`, which selects the container for the versions of a
new key, is a parameter: `true` when it is set to a non-empty text.

## Main results

Each of the three operations that write versions is inverted once. `WriteStep index fresh
keys v s s'` says what such an operation at `index` may do: `keys` become the recorded
keys of `index`, each of them gets the version `v` in the place of `index`, keys that were
recorded and no longer are lose theirs, and nothing else changes.

* `Store.setWriteset_ok`, `Store.setEstimatedWriteset_ok`, `Store.invalidateWriteset_ok`.
-/

namespace MelodiaStore

open MultiVersionValue (map_eq_ok setEstimate_ok)

/-! ### Read sets, write sets and iteration trackers -/

variable {k : Bytes} {keys : List Bytes} {index : ℕ} {db : MemDB} {incarnation : ℤ} {value : Slice}
  {item : MultiVersionValue}

/-- `WriteSet`: the written values by key, `nil` being a deletion. -/
abbrev WriteSet := GoMap Bytes Slice

/-- `ReadSet`: the distinct values read, by key. -/
abbrev ReadSet := GoMap Bytes (List Slice)

/-- `iterationTracker`: what one iterator of a transaction has shown. -/
structure IterationTracker where
  startKey : Slice
  endKey : Slice
  earlyStopKey : Slice
  iteratedKeys : Finset Bytes
  ascending : Bool
  writeset : WriteSet

/-- `Iterateset`. -/
abbrev Iterateset := List IterationTracker

/-- `sort.Strings`. -/
def sortStrings (keys : List Bytes) : List Bytes := keys.insertionSort (· ≤ ·)

/-- `sort.Ints`, on the indices of a conflict set. -/
def sortInts (indices : List ℕ) : List ℕ := indices.insertionSort (· ≤ ·)

@[simp] theorem mem_sortStrings : k ∈ sortStrings keys ↔ k ∈ keys :=
  List.mem_insertionSort _

/-- Sorting distinct strings gives a strictly ascending list. -/
theorem sortStrings_pairwise (h : keys.Nodup) : (sortStrings keys).Pairwise (· < ·) := by
  have hle := List.pairwise_insertionSort (· ≤ ·) keys
  have hne : (sortStrings keys).Nodup := (List.perm_insertionSort _ keys).nodup_iff.mpr h
  exact (hle.and hne).imp fun hab => lt_of_le_of_ne hab.1 hab.2

/-! ### The store -/

/-- `multiVersionMap`. -/
abbrev VersionMap := GoMap Bytes MultiVersionValue

/-- `multiversion.Store` over a parent store of type `π`. -/
structure Store (π : Type) where
  multiVersionMap : VersionMap
  txWritesetKeys : GoMap ℕ (List Bytes)
  txReadSets : GoMap ℕ ReadSet
  txIterateSets : GoMap ℕ Iterateset
  parentStore : π

/-- `NewMultiVersionStore`. -/
def newMultiVersionStore {π : Type} (parentStore : π) : Store π :=
  ⟨∅, ∅, ∅, ∅, parentStore⟩

/-- The container `SetWriteset` makes for the versions of a new key. -/
def newVersions (versionList : Bool) (totalTask : ℕ) : MultiVersionValue :=
  if versionList then .tree newMultiVersionItem else .list (newMultiVersionListItem totalTask)

/-- A new container is empty. -/
theorem slot_newVersions (versionList : Bool) (totalTask i : ℕ) :
    (newVersions versionList totalTask).slot i = none := by
  cases versionList with
  | false => exact MultiVersionListItem.slot_newMultiVersionListItem totalTask i
  | true => rfl

theorem fits_newVersions {versionList : Bool} {totalTask i : ℕ} (h : i < totalTask) :
    (newVersions versionList totalTask).fits i := by
  cases versionList with
  | false => exact MultiVersionValue.fits_newMultiVersionListItem.mpr h
  | true => trivial

/-- What `SetWriteset` does to the versions of a key: a `nil` value deletes. -/
def setOrDelete (index : ℕ) (incarnation : ℤ) (value : Slice) (mvVal : MultiVersionValue) :
    Except Panic MultiVersionValue :=
  match value with
  | none => mvVal.delete index incarnation
  | some v => mvVal.set index incarnation (some v)

/-- The version `SetWriteset` leaves in place `c`: a deletion carries the place. -/
def writtenItem (index : ℕ) (incarnation : ℤ) (value : Slice) (c : ℕ) : ValueItem :=
  match value with
  | none => newDeletedItem c incarnation
  | some v => newValueItem index incarnation (some v)

theorem index_writtenItem (index : ℕ) (inc : ℤ) (value : Slice) :
    (writtenItem index inc value index).index = index := by
  cases value <;> rfl

/-- One round of the loop of `removeOldWriteset`: a key that is not rewritten, and that has
versions, loses the one of `index`. -/
def removeKey (index : ℕ) (newWriteSet : WriteSet) (key : Bytes) :
    EStateM Panic VersionMap PUnit :=
  updateEntry (fun m k => m.lookup k) (fun m k v => m.insert k v) key fun old =>
    if key ∈ newWriteSet then .ok none
    else
      match old with
      | none => .ok none
      | some mvVal => (mvVal.remove index).map some

/-- One round of the loop of `SetWriteset`. -/
def writeKey (versionList : Bool) (index : ℕ) (incarnation : ℤ) (totalTask : ℕ)
    (entry : (_ : Bytes) × Slice) : EStateM Panic VersionMap PUnit := do
  let mvVal ← loadOrStore entry.1 (newVersions versionList totalTask)
  let mvVal' ← ofExcept (setOrDelete index incarnation entry.2 mvVal)
  modify fun m => m.insert entry.1 mvVal'

/-- One round of the loops of `InvalidateWriteset` and `SetEstimatedWriteset`, which make
a slice of the given size for the versions of a new key. -/
def estimateKey (size index : ℕ) (incarnation : ℤ) (key : Bytes) :
    EStateM Panic VersionMap PUnit := do
  let val ← loadOrStore key (.list (newMultiVersionListItem size))
  let val' ← ofExcept (val.setEstimate index incarnation)
  modify fun m => m.insert key val'

namespace Store

variable {π : Type}

/-- Run a computation on the version map. -/
def onVersions (x : EStateM Panic VersionMap PUnit) : EStateM Panic (Store π) PUnit :=
  zoom multiVersionMap (fun m s => { s with multiVersionMap := m }) x

/-- `GetLatest`. -/
def getLatest (s : Store π) (key : Bytes) : Except Panic (Option ValueItem) :=
  match s.multiVersionMap.lookup key with
  | none => .ok none
  | some mvVal => mvVal.getLatest

/-- `GetLatestBeforeIndex`. -/
def getLatestBeforeIndex (s : Store π) (index : ℕ) (key : Bytes) :
    Except Panic (Option ValueItem) :=
  match s.multiVersionMap.lookup key with
  | none => .ok none
  | some mvVal => mvVal.getLatestBeforeIndex index

/-- `Has`. -/
def has (s : Store π) (index : ℕ) (key : Bytes) : Except Panic Bool :=
  match s.multiVersionMap.lookup key with
  | none => .ok false
  | some mvVal => (mvVal.getLatestBeforeIndex index).map Option.isSome

/-- `removeOldWriteset`. -/
def removeOldWriteset (index : ℕ) (newWriteSet : WriteSet) : EStateM Panic (Store π) PUnit := do
  match (← get).txWritesetKeys.lookup index with
  | none => pure ⟨⟩
  | some keys =>
    modify fun s => { s with txWritesetKeys := s.txWritesetKeys.erase index }
    onVersions (forM keys (removeKey index newWriteSet))

/-- `SetWriteset`. -/
def setWriteset (versionList : Bool) (index : ℕ) (incarnation : ℤ) (writeset : WriteSet)
    (totalTask : ℕ) : EStateM Panic (Store π) PUnit := do
  removeOldWriteset index writeset
  onVersions (forM writeset.entries (writeKey versionList index incarnation totalTask))
  modify fun s =>
    { s with txWritesetKeys := s.txWritesetKeys.insert index (sortStrings writeset.keys) }

/-- `InvalidateWriteset`. -/
def invalidateWriteset (index : ℕ) (incarnation : ℤ) (totalTask : ℕ) :
    EStateM Panic (Store π) PUnit := do
  match (← get).txWritesetKeys.lookup index with
  | none => pure ⟨⟩
  | some keys => onVersions (forM keys (estimateKey totalTask index incarnation))

/-- The size of the slices `SetEstimatedWriteset` makes. -/
def estimatedSize : ℕ := 10000

/-- `SetEstimatedWriteset`. -/
def setEstimatedWriteset (index : ℕ) (incarnation : ℤ) (writeset : WriteSet) :
    EStateM Panic (Store π) PUnit := do
  removeOldWriteset index writeset
  onVersions (forM writeset.keys (estimateKey estimatedSize index incarnation))
  modify fun s =>
    { s with txWritesetKeys := s.txWritesetKeys.insert index (sortStrings writeset.keys) }

/-- `NewKey`: without `versionList` a new key is bound to `nil`. -/
def newKey (versionList : Bool) (key : Bytes) : EStateM Panic (Store π) PUnit := modify fun s =>
  match s.multiVersionMap.lookup key with
  | some _ => s
  | none =>
    let item := if versionList then .tree newMultiVersionItem else .nilValue
    { s with multiVersionMap := s.multiVersionMap.insert key item }

/-- `SetReadset`. -/
def setReadset (index : ℕ) (readset : ReadSet) : EStateM Panic (Store π) PUnit :=
  modify fun s => { s with txReadSets := s.txReadSets.insert index readset }

/-- `GetReadset`; a missing read set is empty. -/
def getReadset (s : Store π) (index : ℕ) : ReadSet := (s.txReadSets.lookup index).getD ∅

/-- `SetIterateset`. -/
def setIterateset (index : ℕ) (iterateset : Iterateset) : EStateM Panic (Store π) PUnit :=
  modify fun s => { s with txIterateSets := s.txIterateSets.insert index iterateset }

/-- The recorded keys of a transaction, empty when none are recorded. -/
def writesetKeys (s : Store π) (index : ℕ) : List Bytes :=
  (s.txWritesetKeys.lookup index).getD []

/-- The version kept for a key in place `i`. -/
def slot (s : Store π) (key : Bytes) (i : ℕ) : Option ValueItem :=
  (s.multiVersionMap.lookup key).bind fun item => item.slot i

/-- No key is bound to `nil`, as `NewKey` does without `versionList`. -/
def Usable (s : Store π) : Prop :=
  ∀ k, s.multiVersionMap.lookup k ≠ some .nilValue

end Store

/-! ### Collecting the keys of earlier transactions -/

/-- Add a key to a database of keys; `MemDB.Set` refuses the empty key, and its error is
dropped. -/
def addKey (db : MemDB) (key : Bytes) : MemDB :=
  match db.set key (some []) with
  | .ok db' => db'
  | .error _ => db

/-- `Store.CollectIteratorItems`. -/
def Store.collectIteratorItems {π : Type} (s : Store π) (index : ℕ) : MemDB :=
  (List.range index).foldl (fun db i =>
    match s.txWritesetKeys.lookup i with
    | none => db
    | some indexedWriteset => indexedWriteset.foldl addKey db) MemDB.new

theorem mem_addKey {key : Bytes} :
    k ∈ (addKey db key).entries ↔ k ∈ db.entries ∨ (k = key ∧ k ≠ []) := by
  unfold addKey MemDB.set
  by_cases hk : key = []
  · subst hk
    simp
  · simp only [hk, dite_false, AList.mem_insert]
    constructor
    · rintro (rfl | h)
      · exact .inr ⟨rfl, hk⟩
      · exact .inl h
    · rintro (h | ⟨rfl, -⟩)
      · exact .inr h
      · exact .inl rfl

/-- The keys that are added. -/
theorem mem_foldl_addKey :
    k ∈ (keys.foldl addKey db).entries ↔ k ∈ db.entries ∨ (k ∈ keys ∧ k ≠ []) := by
  induction keys generalizing db with
  | nil => simp
  | cons key keys ih =>
    rw [List.foldl_cons, ih, mem_addKey, List.mem_cons]
    constructor
    · rintro ((h | ⟨rfl, hne⟩) | ⟨h, hne⟩)
      · exact .inl h
      · exact .inr ⟨.inl rfl, hne⟩
      · exact .inr ⟨.inr h, hne⟩
    · rintro (h | ⟨rfl | h, hne⟩)
      · exact .inl (.inl h)
      · exact .inl (.inr ⟨rfl, hne⟩)
      · exact .inr ⟨h, hne⟩

/-- **The collected keys** are the non-empty keys recorded below the index. -/
theorem Store.mem_collectIteratorItems {π : Type} {s : Store π} :
    k ∈ (s.collectIteratorItems index).entries ↔
      k ≠ [] ∧ ∃ i < index, k ∈ s.writesetKeys i := by
  -- the fold over the first `n` indices has collected the keys below `n`
  unfold Store.collectIteratorItems
  induction index with
  | zero =>
    simp only [List.range_zero, List.foldl_nil, Nat.not_lt_zero, false_and, exists_false,
      and_false, iff_false]
    exact AList.notMem_empty k
  | succ n ih =>
    rw [List.range_succ, List.foldl_append, List.foldl_cons, List.foldl_nil]
    have hsplit : (∃ i < n + 1, k ∈ s.writesetKeys i) ↔
        (∃ i < n, k ∈ s.writesetKeys i) ∨ k ∈ s.writesetKeys n := by
      constructor
      · rintro ⟨i, hi, hk⟩
        rcases Nat.lt_succ_iff_lt_or_eq.mp hi with hlt | rfl
        · exact .inl ⟨i, hlt, hk⟩
        · exact .inr hk
      · rintro (⟨i, hi, hk⟩ | hk)
        · exact ⟨i, by omega, hk⟩
        · exact ⟨n, by omega, hk⟩
    rw [hsplit]
    cases hn : s.txWritesetKeys.lookup n with
    | none =>
      have hkeys : s.writesetKeys n = [] := by rw [Store.writesetKeys, hn]; rfl
      simp only [ih, hkeys, List.not_mem_nil, or_false]
    | some keys =>
      have hkeys : s.writesetKeys n = keys := by rw [Store.writesetKeys, hn]; rfl
      simp only [mem_foldl_addKey, ih, hkeys]
      rw [and_comm (a := k ∈ keys), ← and_or_left]

/-! ### What one round does -/

/-- A removal acts at its key alone. -/
theorem actsAt_removeKey (index : ℕ) (newWriteSet : WriteSet) (key : Bytes) :
    ActsAt key (fun old =>
      if key ∈ newWriteSet then .ok none
      else
        match old with
        | none => .ok none
        | some mvVal => (mvVal.remove index).map some) (removeKey index newWriteSet key) :=
  actsOn_updateEntry key _

/-- A write acts at its key alone. -/
theorem actsAt_writeKey (versionList : Bool) (index : ℕ) (incarnation : ℤ) (totalTask : ℕ)
    (entry : (_ : Bytes) × Slice) :
    ActsAt entry.1 (fun old => (setOrDelete index incarnation entry.2
        (old.getD (newVersions versionList totalTask))).map some)
      (writeKey versionList index incarnation totalTask entry) :=
  actsAt_loadOrStore entry.1 _ _

/-- An estimate acts at its key alone. -/
theorem actsAt_estimateKey (size index : ℕ) (incarnation : ℤ) (key : Bytes) :
    ActsAt key (fun old => ((old.getD (.list (newMultiVersionListItem size))).setEstimate index
        incarnation).map some)
      (estimateKey size index incarnation key) :=
  actsAt_loadOrStore key _ fun val : MultiVersionValue => val.setEstimate index incarnation

/-- `SetWriteset` on one key overwrites its place. -/
theorem setOrDelete_ok {item' : MultiVersionValue}
    (h : setOrDelete index incarnation value item = .ok item') :
    (∀ v, value = some v → ValidValue v) ∧
      item.Put (item.clamp index)
        (some (writtenItem index incarnation value (item.clamp index))) item' := by
  cases value with
  | none => exact ⟨fun v hv => absurd hv (by simp), MultiVersionValue.delete_ok h⟩
  | some v =>
    obtain ⟨⟨b, hb, hvalid⟩, hput⟩ := MultiVersionValue.set_ok h
    refine ⟨fun w hw => ?_, hput⟩
    obtain rfl := Option.some.inj hb
    obtain rfl := Option.some.inj hw
    exact hvalid

/-- `SetWriteset` on one key returns when the versions have a place and the value is
valid. -/
theorem exists_setOrDelete_iff :
    (∃ item', setOrDelete index incarnation value item = .ok item') ↔
      item.fits 0 ∧ ∀ v, value = some v → ValidValue v := by
  cases value with
  | none =>
    refine MultiVersionValue.exists_delete_iff.trans ?_
    simp
  | some v =>
    refine MultiVersionValue.exists_set_iff.trans ?_
    simp

/-! ### What one operation does -/

/-- The versions of a key after a write: place `index` of the old versions, or of the
container `fresh` made for a new key, holds `v`. -/
def Overwritten (fresh : MultiVersionValue) (index : ℕ) (v : ℕ → ValueItem)
    (old new : Option MultiVersionValue) : Prop :=
  ∃ item', (old.getD fresh).Put ((old.getD fresh).clamp index)
    (some (v ((old.getD fresh).clamp index))) item' ∧ new = some item'

/-- The versions of a key after a removal. -/
def Removed (index : ℕ) (old new : Option MultiVersionValue) : Prop :=
  (old = none ∧ new = none) ∨
    ∃ item item', old = some item ∧ item.Put (item.clamp index) none item' ∧ new = some item'

/-- **What an operation that writes versions at `index` may do**: `keys` become the
recorded keys of `index`, and `v k` the version of each key `k` of them. -/
structure WriteStep {π : Type} (index : ℕ) (fresh : MultiVersionValue) (keys : List Bytes)
    (v : Bytes → ℕ → ValueItem) (s s' : Store π) : Prop where
  writesetKeys_eq : ∀ j, s'.writesetKeys j = if j = index then keys else s.writesetKeys j
  written : ∀ k ∈ keys, Overwritten fresh index (v k) (s.multiVersionMap.lookup k)
    (s'.multiVersionMap.lookup k)
  removed : ∀ k, k ∉ keys → k ∈ s.writesetKeys index →
    Removed index (s.multiVersionMap.lookup k) (s'.multiVersionMap.lookup k)
  kept : ∀ k, k ∉ keys → k ∉ s.writesetKeys index →
    s'.multiVersionMap.lookup k = s.multiVersionMap.lookup k
  parentStore_eq : s'.parentStore = s.parentStore
  txReadSets_eq : s'.txReadSets = s.txReadSets
  txIterateSets_eq : s'.txIterateSets = s.txIterateSets

namespace Store

variable {π : Type} {s s' : Store π} {index : ℕ} {ws : WriteSet} {totalTask : ℕ} {inc : ℤ}
  {versionList : Bool}

theorem run_onVersions_eq_ok {x : EStateM Panic VersionMap PUnit} :
    (onVersions x).run s = .ok ⟨⟩ s' ↔
      ∃ m, x.run s.multiVersionMap = .ok ⟨⟩ m ∧ s' = { s with multiVersionMap := m } :=
  run_zoom_eq_ok

/-- The recorded keys are forgotten, and gone over. -/
theorem run_removeOldWriteset (index : ℕ) (ws : WriteSet) (s : Store π) :
    (removeOldWriteset index ws).run s =
      (onVersions (forM (s.writesetKeys index) (removeKey index ws))).run
        { s with txWritesetKeys := s.txWritesetKeys.erase index } := by
  rw [removeOldWriteset, run_bind_of_ok (EStateM.run_get s), writesetKeys]
  cases hl : s.txWritesetKeys.lookup index with
  | none =>
    have herase : s.txWritesetKeys.erase index = s.txWritesetKeys :=
      AList.ext (List.kerase_of_notMem_keys (AList.lookup_eq_none.mp hl))
    rw [herase]
    rfl
  | some keys => rfl

/-- An invalidation is a loop over the recorded keys. -/
theorem run_invalidateWriteset (index : ℕ) (inc : ℤ) (totalTask : ℕ) (s : Store π) :
    (invalidateWriteset index inc totalTask).run s =
      (onVersions (forM (s.writesetKeys index) (estimateKey totalTask index inc))).run s := by
  rw [invalidateWriteset, run_bind_of_ok (EStateM.run_get s), writesetKeys]
  cases s.txWritesetKeys.lookup index <;> rfl

/-- The effect of `removeOldWriteset`: the recorded keys of `index` are forgotten, and
those that are not rewritten lose their versions. -/
theorem removeOldWriteset_ok (hnodup : (s.writesetKeys index).Nodup)
    (h : (removeOldWriteset index ws).run s = .ok ⟨⟩ s') :
    (∃ ks m, s' = { s with txWritesetKeys := ks, multiVersionMap := m } ∧
      ∀ j, j ≠ index → ks.lookup j = s.txWritesetKeys.lookup j) ∧
    (∀ k, k ∉ ws → k ∈ s.writesetKeys index →
      Removed index (s.multiVersionMap.lookup k) (s'.multiVersionMap.lookup k)) ∧
    (∀ k, k ∈ ws ∨ k ∉ s.writesetKeys index →
      s'.multiVersionMap.lookup k = s.multiVersionMap.lookup k) := by
  rw [run_removeOldWriteset] at h
  obtain ⟨m, hm, rfl⟩ := run_onVersions_eq_ok.mp h
  obtain ⟨hin, hout⟩ := forM_actsAt id
    (fun k _ => actsAt_removeKey index ws k) (by simpa using hnodup) hm
  refine ⟨⟨_, m, rfl, fun j hj => AList.lookup_erase_ne hj⟩, fun k hk hmem => ?_, fun k hk => ?_⟩
  · obtain ⟨r, hr, hlook⟩ := hin k hmem
    simp only [id_eq, if_neg hk] at hr hlook
    cases hold : s.multiVersionMap.lookup k with
    | none =>
      rw [hold] at hr hlook
      obtain rfl := Except.ok.inj hr
      exact .inl ⟨rfl, hlook⟩
    | some item =>
      rw [hold] at hr hlook
      obtain ⟨item', hitem, rfl⟩ := map_eq_ok.mp hr
      exact .inr ⟨item, item', rfl, MultiVersionValue.remove_ok hitem, hlook⟩
  · by_cases hmem : k ∈ s.writesetKeys index
    · have hws : k ∈ ws := hk.resolve_right fun h => h hmem
      obtain ⟨r, hr, hlook⟩ := hin k hmem
      simp only [id_eq, if_pos hws] at hr hlook
      obtain rfl := Except.ok.inj hr
      exact hlook
    · exact hout k (by simpa using hmem)

/-- The loop and the recording step that `SetWriteset` and `SetEstimatedWriteset` share:
after the old write set is removed, a loop overwrites the place of `index` for every key
of the new one, and the sorted keys are recorded. -/
theorem writeStep_of_removeOld {α : Type} {fresh : MultiVersionValue} {v : Bytes → ℕ → ValueItem}
    (key : α → Bytes) {l : List α}
    {f : α → Option MultiVersionValue → Except Panic (Option MultiVersionValue)}
    {body : α → EStateM Panic VersionMap PUnit} (hnodup : (s.writesetKeys index).Nodup)
    (hkeys : l.map key = ws.keys) (hbody : ∀ a ∈ l, ActsAt (key a) (f a) (body a))
    (hf : ∀ a ∈ l, ∀ old r, f a old = .ok r → Overwritten fresh index (v (key a)) old (r.or old))
    (h : (do
      removeOldWriteset index ws
      onVersions (forM l body)
      modify fun s : Store π => { s with
        txWritesetKeys := s.txWritesetKeys.insert index (sortStrings ws.keys) }).run s =
          .ok ⟨⟩ s') : WriteStep index fresh (sortStrings ws.keys) v s s' := by
  obtain ⟨⟨⟩, t, hremove, h⟩ := run_bind_eq_ok.mp h
  obtain ⟨⟨⟩, u, hloop, h⟩ := run_bind_eq_ok.mp h
  rw [EStateM.run_modify] at h
  obtain ⟨-, rfl⟩ := EStateM.Result.ok.inj h
  obtain ⟨⟨ks, m, rfl, hks⟩, hrem, hkeep⟩ := removeOldWriteset_ok hnodup hremove
  obtain ⟨m', hm', rfl⟩ := run_onVersions_eq_ok.mp hloop
  obtain ⟨hin, hout⟩ := forM_actsAt key hbody (by rw [hkeys]; exact ws.keys_nodup) hm'
  have hnot : ∀ k, k ∉ sortStrings ws.keys → k ∉ ws ∧ m'.lookup k = m.lookup k := by
    intro k hk
    rw [mem_sortStrings] at hk
    exact ⟨hk, hout k (by rwa [hkeys])⟩
  refine ⟨fun j => ?_, fun k hk => ?_, fun k hk hold => ?_, fun k hk hold => ?_, rfl, rfl, rfl⟩
  · simp only [writesetKeys, lookup_insert_ite]
    split
    · rfl
    · next hj => rw [hks j hj]
  · rw [mem_sortStrings, ← hkeys] at hk
    obtain ⟨a, ha, rfl⟩ := List.mem_map.mp hk
    obtain ⟨r, hr, hlook⟩ := hin a ha
    have hws : key a ∈ ws := by
      rw [AList.mem_keys, ← hkeys]
      exact hk
    have hover := hf a ha _ r hr
    rw [← hlook] at hover
    rwa [hkeep (key a) (.inl hws)] at hover
  · obtain ⟨hws, hsame⟩ := hnot k hk
    have := hrem k hws hold
    rwa [← hsame] at this
  · obtain ⟨hws, hsame⟩ := hnot k hk
    exact hsame.trans (hkeep k (.inr hold))

/-- **`SetWriteset`**: the recorded keys are those of the write set, and each has the
version written for it. -/
theorem setWriteset_ok (hnodup : (s.writesetKeys index).Nodup)
    (h : (setWriteset versionList index inc ws totalTask).run s = .ok ⟨⟩ s') :
    WriteStep index (newVersions versionList totalTask) (sortStrings ws.keys)
      (fun k c => writtenItem index inc ((ws.lookup k).getD none) c) s s' := by
  refine writeStep_of_removeOld (fun e => e.1) hnodup rfl
    (fun e _ => actsAt_writeKey versionList index inc totalTask e) (fun e he old r hr => ?_) h
  obtain ⟨item', hitem, rfl⟩ := map_eq_ok.mp hr
  have hlook : ws.lookup e.1 = some e.2 := mem_entries_iff.mp he
  refine ⟨item', ?_, rfl⟩
  rw [hlook, Option.getD_some]
  exact (setOrDelete_ok hitem).2

/-- `SetWriteset` returns only when `AssertValidValue` lets all its values pass. -/
theorem valid_of_setWriteset
    (h : (setWriteset versionList index inc ws totalTask).run s = .ok ⟨⟩ s') {k v : Bytes}
    (hk : ws.lookup k = some (some v)) : ValidValue v := by
  rw [setWriteset, run_bind_eq_ok] at h
  obtain ⟨⟨⟩, t, -, h⟩ := h
  obtain ⟨⟨⟩, u, hloop, -⟩ := run_bind_eq_ok.mp h
  obtain ⟨m', hm', -⟩ := run_onVersions_eq_ok.mp hloop
  have hnodup : (ws.entries.map fun e => e.1).Nodup := ws.keys_nodup
  obtain ⟨r, hr, -⟩ := (forM_actsAt (fun e => e.1)
    (fun e _ => actsAt_writeKey versionList index inc totalTask e) hnodup hm').1
      ⟨k, some v⟩ (mem_entries_iff.mpr hk)
  obtain ⟨item', hitem, -⟩ := map_eq_ok.mp hr
  exact (setOrDelete_ok hitem).1 v rfl

/-- **`SetEstimatedWriteset`**: the recorded keys are those of the write set, and each is
an estimate. -/
theorem setEstimatedWriteset_ok (hnodup : (s.writesetKeys index).Nodup)
    (h : (setEstimatedWriteset index inc ws).run s = .ok ⟨⟩ s') :
    WriteStep index (.list (newMultiVersionListItem estimatedSize)) (sortStrings ws.keys)
      (fun _ _ => newEstimateItem index inc) s s' := by
  refine writeStep_of_removeOld id hnodup (List.map_id _)
    (fun k _ => actsAt_estimateKey estimatedSize index inc k) (fun k _ old r hr => ?_) h
  obtain ⟨item', hitem, rfl⟩ := map_eq_ok.mp hr
  exact ⟨item', setEstimate_ok hitem, rfl⟩

/-- **`InvalidateWriteset`**: the recorded keys stay, and each becomes an estimate. -/
theorem invalidateWriteset_ok (hnodup : (s.writesetKeys index).Nodup)
    (h : (invalidateWriteset index inc totalTask).run s = .ok ⟨⟩ s') :
    WriteStep index (.list (newMultiVersionListItem totalTask)) (s.writesetKeys index)
      (fun _ _ => newEstimateItem index inc) s s' := by
  rw [run_invalidateWriteset] at h
  obtain ⟨m, hm, rfl⟩ := run_onVersions_eq_ok.mp h
  obtain ⟨hin, hout⟩ := forM_actsAt id
    (fun k _ => actsAt_estimateKey totalTask index inc k) (by simpa using hnodup) hm
  refine ⟨fun j => ?_, fun k hk => ?_, fun k hk hold => absurd hold hk,
    fun k hk _ => hout k (by simpa using hk), rfl, rfl, rfl⟩
  · split
    · next hj => rw [hj]; rfl
    · rfl
  · obtain ⟨r, hr, hlook⟩ := hin k hk
    obtain ⟨item', hitem, rfl⟩ := map_eq_ok.mp hr
    exact ⟨item', setEstimate_ok hitem, hlook⟩

end Store

end MelodiaStore
