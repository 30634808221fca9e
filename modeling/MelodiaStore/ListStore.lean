import MelodiaStore.History

/-!
# The List Store

The operations of `multiversion/list_store.go`: the second multi-version store, which keeps
the versions of all keys in slices, spreads the keys over shards, and keeps the write keys,
read sets and iterate sets of the transactions in one slice.

`ShardedMap` carries two facts as fields: it has at least one shard, and every key lives in
the shard its checksum selects. So a traversal of all shards meets each key once.

A key has to be registered with `NewKey` before it is written. Its first registration makes
a slice of length one, the second one a slice with a place for every transaction.

## Main results

* `ListWrite` says what an operation may do, and `ListStore.setWriteset_ok`,
  `ListStore.setEstimatedWriteset_ok` and `ListStore.invalidateWriteset_ok` invert the
  three operations. `SetWriteset` removes the versions of the old keys only for positive
  incarnations, and records the new keys only when there are any.
-/

namespace MelodiaStore

/-! ### Sharded maps -/

/-- One bit of the remainder of `crc32.ChecksumIEEE`. -/
def crc32Bit (crc : UInt32) : UInt32 :=
  if crc &&& 1 = 1 then (crc >>> 1) ^^^ 0xEDB88320 else crc >>> 1

/-- `crc32.ChecksumIEEE`. -/
def checksumIEEE (data : Bytes) : UInt32 :=
  (data.foldl (fun crc b => crc32Bit^[8] (crc ^^^ b.toUInt32)) 0xFFFFFFFF) ^^^ 0xFFFFFFFF

/-- The check value of the code. -/
example : checksumIEEE [49, 50, 51, 52, 53, 54, 55, 56, 57] = 0xCBF43926 := by decide +kernel

/-- `getShard`, in a map with the given number of shards. -/
def getShard (shardCount : ℕ) (key : Bytes) : ℕ := (checksumIEEE key).toNat % shardCount

/-- `ShardedMap`. The values are the slices that `Update` stores. -/
structure ShardedMap where
  shards : List (GoMap Bytes MultiVersionListItem)
  nonempty : 0 < shards.length
  home : ∀ i shard, shards[i]? = some shard → ∀ key ∈ shard, getShard shards.length key = i

namespace ShardedMap

/-- `NewShardedMap`. -/
def newShardedMap (shardCount : ℕ) (h : 0 < shardCount) : ShardedMap where
  shards := List.replicate shardCount ∅
  nonempty := by rwa [List.length_replicate]
  home i shard hi key hkey := by
    rw [List.getElem?_replicate] at hi
    split at hi
    · obtain rfl := Option.some.inj hi
      exact absurd hkey (AList.notMem_empty key)
    · cases hi

/-- `Get`. -/
def get (sm : ShardedMap) (key : Bytes) : Option MultiVersionListItem :=
  (sm.shards[getShard sm.shards.length key]?).bind fun shard => shard.lookup key

/-- `Set`. -/
def set (sm : ShardedMap) (key : Bytes) (value : MultiVersionListItem) : ShardedMap where
  shards := sm.shards.modify (getShard sm.shards.length key) fun shard => shard.insert key value
  nonempty := by
    rw [List.length_modify]
    exact sm.nonempty
  home i shard hi k hk := by
    rw [List.length_modify]
    rw [List.getElem?_modify] at hi
    obtain ⟨old, hold, rfl⟩ := Option.map_eq_some_iff.mp hi
    split at hk
    · next hshard =>
      rcases (AList.mem_insert old).mp hk with rfl | hk
      · exact hshard
      · exact sm.home i old hold k hk
    · exact sm.home i old hold k hk

/-- `Update`. -/
def update (sm : ShardedMap) (key : Bytes) (totalTask : ℕ) : ShardedMap :=
  match sm.get key with
  | none => sm.set key (newMultiVersionListItem 1)
  | some value =>
    if value.valueList.length = 1 then sm.set key (newMultiVersionListItem totalTask) else sm

theorem getShard_lt (sm : ShardedMap) (key : Bytes) :
    getShard sm.shards.length key < sm.shards.length :=
  Nat.mod_lt _ sm.nonempty

/-- What is found after a write. -/
theorem get_set (sm : ShardedMap) (key : Bytes) (value : MultiVersionListItem) (k : Bytes) :
    (sm.set key value).get k = if k = key then some value else sm.get k := by
  have hlen : (sm.set key value).shards.length = sm.shards.length := List.length_modify ..
  simp only [get, hlen]
  simp only [set, List.getElem?_modify]
  have hk := List.getElem?_eq_getElem (sm.getShard_lt k)
  rw [hk]
  simp only [Option.map_eq_map, Option.map_some, Option.bind_some]
  by_cases hkey : k = key
  · subst hkey
    rw [if_pos rfl, if_pos rfl, AList.lookup_insert]
  · rw [if_neg hkey]
    split
    · exact AList.lookup_insert_ne hkey
    · rfl

/-- Nothing is found in a new map. -/
theorem get_newShardedMap (shardCount : ℕ) (h : 0 < shardCount) (k : Bytes) :
    (newShardedMap shardCount h).get k = none := by
  simp only [get, newShardedMap, List.getElem?_replicate]
  split <;> rfl

theorem keyed : Keyed get set := ⟨get_set⟩

end ShardedMap

/-! ### The store -/

/-- `VersionStoreIndexKeys`. -/
structure VersionStoreIndexKeys where
  txWritesetKeys : List Bytes
  readset : ReadSet
  iterateset : Iterateset

/-- `ListStore` over a parent store of type `π`. -/
structure ListStore (π : Type) where
  shardMap : ShardedMap
  keysList : List VersionStoreIndexKeys
  parentStore : π

/-- `NewMultiVersionListStore`. -/
def newMultiVersionListStore {π : Type} (parentStore : π) (totalTask : ℕ) : ListStore π :=
  ⟨ShardedMap.newShardedMap 128 (by decide), List.replicate totalTask ⟨[], ∅, []⟩, parentStore⟩

/-- What `SetWriteset` does to the slice of a key: a `nil` value deletes. -/
def MultiVersionListItem.setOrDelete (index : ℕ) (incarnation : ℤ) (value : Slice)
    (mvVal : MultiVersionListItem) : Except Panic MultiVersionListItem :=
  match value with
  | none => mvVal.delete index incarnation
  | some v => mvVal.set index incarnation (some v)

namespace ListStore

variable {π : Type}

/-- `NewKey`. -/
def newKey (s : ListStore π) (key : Bytes) (totalTask : ℕ) : ListStore π :=
  { s with shardMap := s.shardMap.update key totalTask }

/-- `GetLatest`. -/
def getLatest (s : ListStore π) (key : Bytes) : Option ValueItem :=
  (s.shardMap.get key).bind fun mvVal => mvVal.getLatest

/-- `GetLatestBeforeIndex`. -/
def getLatestBeforeIndex (s : ListStore π) (index : ℕ) (key : Bytes) : Option ValueItem :=
  (s.shardMap.get key).bind fun mvVal => mvVal.getLatestBeforeIndex index

/-- `GetLatestBeforeIndexExpansion`, which may let the slice of the key grow. -/
def getLatestBeforeIndexExpansion (s : ListStore π) (index : ℕ) (key : Bytes) :
    Option ValueItem × ListStore π :=
  match s.shardMap.get key with
  | none => (none, s)
  | some mvVal =>
    let (val, mvVal') := mvVal.getLatestBeforeIndexExpansion index
    (val, { s with shardMap := s.shardMap.set key mvVal' })

/-- `Has`. -/
def has (s : ListStore π) (index : ℕ) (key : Bytes) : Bool :=
  (s.getLatestBeforeIndex index key).isSome

/-- One round of the loop of `removeOldWriteset`: a key that is not rewritten, and that has
a slice, loses the version of `index`. -/
def removeKey (index : ℕ) (newWriteSet : WriteSet) (key : Bytes) :
    EStateM Panic ShardedMap PUnit :=
  updateEntry ShardedMap.get ShardedMap.set key fun old =>
    if key ∈ newWriteSet then .ok none
    else
      match old with
      | none => .ok none
      | some mvVal => (mvVal.remove index).map some

/-- One round of the loop of `SetWriteset`, which panics on a key without a slice. -/
def writeKey (index : ℕ) (incarnation : ℤ) (entry : (_ : Bytes) × Slice) :
    EStateM Panic ShardedMap PUnit :=
  updateEntry ShardedMap.get ShardedMap.set entry.1 fun
    | none => .error (.text "map get nil")
    | some mvVal => (mvVal.setOrDelete index incarnation entry.2).map some

/-- One round of the loops of `InvalidateWriteset` and `SetEstimatedWriteset`: the type
assertion panics on a key without a slice. -/
def estimateKey (index : ℕ) (incarnation : ℤ) (key : Bytes) : EStateM Panic ShardedMap PUnit :=
  updateEntry ShardedMap.get ShardedMap.set key fun
    | none => .error .nilInterface
    | some val => (val.setEstimate index incarnation).map some

/-- Run a computation on the sharded map. -/
def onShards (x : EStateM Panic ShardedMap PUnit) : EStateM Panic (ListStore π) PUnit :=
  zoom shardMap (fun m s => { s with shardMap := m }) x

/-- `s.keysList[index].txWritesetKeys`, with the bounds check. -/
def oldKeys (index : ℕ) : EStateM Panic (ListStore π) (List Bytes) := do
  match (← get).keysList[index]? with
  | none => throw .indexOutOfRange
  | some keys => pure keys.txWritesetKeys

/-- Change the sets of a transaction, with the bounds check. -/
def modifyKeys (index : ℕ) (f : VersionStoreIndexKeys → VersionStoreIndexKeys) :
    EStateM Panic (ListStore π) PUnit := do
  if index < (← get).keysList.length then
    modify fun s => { s with keysList := s.keysList.modify index f }
  else
    throw .indexOutOfRange

/-- `s.keysList[index].txWritesetKeys = writeSetKeys`. -/
def recordKeys (index : ℕ) (writeSetKeys : List Bytes) : EStateM Panic (ListStore π) PUnit :=
  modifyKeys index ({ · with txWritesetKeys := writeSetKeys })

/-- `SetReadset`. -/
def setReadset (index : ℕ) (readset : ReadSet) : EStateM Panic (ListStore π) PUnit :=
  modifyKeys index ({ · with readset := readset })

/-- `SetIterateset`. -/
def setIterateset (index : ℕ) (iterateset : Iterateset) : EStateM Panic (ListStore π) PUnit :=
  modifyKeys index ({ · with iterateset := iterateset })

/-- `removeOldWriteset`. -/
def removeOldWriteset (index : ℕ) (newWriteSet : WriteSet) :
    EStateM Panic (ListStore π) PUnit := do
  let keys ← oldKeys index
  onShards (forM keys (removeKey index newWriteSet))

/-- `SetWriteset`. -/
def setWriteset (index : ℕ) (incarnation : ℤ) (writeset : WriteSet) :
    EStateM Panic (ListStore π) PUnit := do
  if 0 < incarnation then
    removeOldWriteset index writeset
  if writeset.keys.length = 0 then
    return
  onShards (forM writeset.entries (writeKey index incarnation))
  recordKeys index (sortStrings writeset.keys)

/-- `InvalidateWriteset`. -/
def invalidateWriteset (index : ℕ) (incarnation : ℤ) : EStateM Panic (ListStore π) PUnit := do
  let keys ← oldKeys index
  onShards (forM keys (estimateKey index incarnation))

/-- `SetEstimatedWriteset`. -/
def setEstimatedWriteset (index : ℕ) (incarnation : ℤ) (writeset : WriteSet) :
    EStateM Panic (ListStore π) PUnit := do
  removeOldWriteset index writeset
  onShards (forM writeset.keys (estimateKey index incarnation))
  recordKeys index (sortStrings writeset.keys)

/-- `CollectIteratorItems`: the loop runs over the indices below `index`, but its body reads
the keys of `index`. -/
def collectIteratorItems (s : ListStore π) (index : ℕ) : Except Panic MemDB :=
  (List.range index).foldlM (fun sortedItems _ =>
    match s.keysList[index]? with
    | none => .error .indexOutOfRange
    | some keys => .ok (keys.txWritesetKeys.foldl addKey sortedItems)) MemDB.new

/-- The recorded keys of a transaction, empty when there is no such transaction. -/
def writesetKeys (s : ListStore π) (index : ℕ) : List Bytes :=
  ((s.keysList[index]?).map VersionStoreIndexKeys.txWritesetKeys).getD []

/-- What a key is bound to. -/
def item (s : ListStore π) (key : Bytes) : Option MultiVersionValue :=
  (s.shardMap.get key).map .list

/-- The version kept for a key in place `i`. -/
def slot (s : ListStore π) (key : Bytes) (i : ℕ) : Option ValueItem :=
  (s.item key).bind fun item => item.slot i

/-- All versions kept for a key. -/
def versions (s : ListStore π) (key : Bytes) : List ValueItem :=
  ((s.item key).map MultiVersionValue.entries).getD []

/-- The versions are those of the slots. -/
theorem mem_versions {s : ListStore π} {key : Bytes} {e : ValueItem} :
    e ∈ s.versions key ↔ ∃ i, s.slot key i = some e := by
  unfold versions slot
  cases s.item key with
  | none => simp
  | some item => exact MultiVersionValue.mem_entries

/-! ### What one operation does -/

/-- Every key that is written has a slice, whose place of `index` holds the new version. -/
def Written (index : ℕ) (v : ℕ → ValueItem) (old new : Option MultiVersionValue) : Prop :=
  ∃ item item', old = some item ∧ item.Put (item.clamp index) (some (v (item.clamp index))) item' ∧
    new = some item'

end ListStore

/-- **What an operation of the list store at `index` may do**: the keys of `keys` get the
version `v`, those of `gone` that are not among them lose theirs, and `recorded` become the
recorded keys. -/
structure ListWrite {π : Type} (index : ℕ) (gone keys : List Bytes) (v : Bytes → ℕ → ValueItem)
    (recorded : List Bytes) (s s' : ListStore π) : Prop where
  writesetKeys_eq : ∀ j, s'.writesetKeys j = if j = index then recorded else s.writesetKeys j
  written : ∀ k ∈ keys, ListStore.Written index (v k) (s.item k) (s'.item k)
  removed : ∀ k ∈ gone, k ∉ keys → Removed index (s.item k) (s'.item k)
  kept : ∀ k, k ∉ keys → k ∉ gone → s'.item k = s.item k
  length_eq : s'.keysList.length = s.keysList.length
  parentStore_eq : s'.parentStore = s.parentStore

namespace ListStore

open MultiVersionValue (map_eq_ok)

variable {π : Type} {s s' : ListStore π} {index : ℕ} {keys : List Bytes} {inc : ℤ}
  {m m' : ShardedMap} {ws : WriteSet}

theorem run_onShards_eq_ok {x : EStateM Panic ShardedMap PUnit} :
    (onShards x).run s = .ok ⟨⟩ s' ↔
      ∃ m, x.run s.shardMap = .ok ⟨⟩ m ∧ s' = { s with shardMap := m } :=
  run_zoom_eq_ok

/-- The keys that are read. -/
theorem run_oldKeys_eq_ok :
    (oldKeys index).run s = .ok keys s' ↔
      index < s.keysList.length ∧ keys = s.writesetKeys index ∧ s' = s := by
  rw [oldKeys, run_bind_of_ok (EStateM.run_get s)]
  unfold writesetKeys
  cases hi : s.keysList[index]? with
  | none =>
    have hlen := List.getElem?_eq_none_iff.mp hi
    constructor
    · intro h
      cases h
    · rintro ⟨hlt, -⟩
      omega
  | some keys' =>
    obtain ⟨hlt, -⟩ := List.getElem?_eq_some_iff.mp hi
    simp [hlt, eq_comm]

/-- The keys that are recorded. -/
theorem run_recordKeys_eq_ok :
    (recordKeys index keys).run s = .ok ⟨⟩ s' ↔ index < s.keysList.length ∧
      s' = { s with
        keysList := s.keysList.modify index ({ · with txWritesetKeys := keys }) } := by
  rw [recordKeys, modifyKeys, run_bind_of_ok (EStateM.run_get s)]
  split
  · next h => simp [h, EStateM.run_modify, eq_comm]
  · next h => simp [h, EStateM.run_throw]

/-- Recording the keys of a transaction that exists. -/
theorem writesetKeys_record (h : index < s.keysList.length) (j : ℕ) :
    writesetKeys { s with
      keysList := s.keysList.modify index ({ · with txWritesetKeys := keys }) } j =
      if j = index then keys else s.writesetKeys j := by
  simp only [writesetKeys, List.getElem?_modify]
  by_cases hj : j = index
  · subst hj
    rw [if_pos rfl, List.getElem?_eq_getElem h]
    simp
  · rw [if_neg hj]
    simp [Ne.symm hj]

/-- Every write of the slice is a `Put`. -/
theorem put_setOrDelete {value : Slice} {m m' : MultiVersionListItem}
    (h : m.setOrDelete index inc value = .ok m') :
    (MultiVersionValue.list m).Put (m.clamp index)
      (some (writtenItem index inc value (m.clamp index))) (.list m') := by
  refine (@setOrDelete_ok index inc value (.list m) (.list m') ?_).2
  cases value with
  | none | some v => exact map_eq_ok.mpr ⟨m', h, rfl⟩

/-- The loop over some entries of a write set. -/
theorem run_entries_ok {entries : List ((_ : Bytes) × Slice)}
    (hnodup : (entries.map Sigma.fst).Nodup)
    (h : (forM entries (writeKey index inc)).run m = .ok ⟨⟩ m') :
    (∀ e ∈ entries, Written index (writtenItem index inc e.2)
      ((m.get e.1).map .list) ((m'.get e.1).map .list)) ∧
    (∀ k, k ∉ entries.map Sigma.fst → m'.get k = m.get k) := by
  obtain ⟨hin, hout⟩ := forM_actsOn ShardedMap.keyed (fun e : (_ : Bytes) × Slice => e.1)
    (fun e _ => actsOn_updateEntry e.1 _) hnodup h
  refine ⟨fun e he => ?_, hout⟩
  obtain ⟨r, hr, hget⟩ := hin e he
  cases hold : m.get e.1 with
  | none =>
    rw [hold] at hr
    cases hr
  | some item =>
    rw [hold] at hr hget
    obtain ⟨item', hitem, rfl⟩ := map_eq_ok.mp hr
    rw [hget]
    exact ⟨.list item, .list item', rfl, put_setOrDelete hitem, rfl⟩

/-- The loop over the keys of a write set. -/
theorem run_writes_ok (h : (forM ws.entries (writeKey index inc)).run m = .ok ⟨⟩ m') :
    (∀ k ∈ ws.keys, Written index
      (fun c => writtenItem index inc ((ws.lookup k).getD none) c)
      ((m.get k).map .list) ((m'.get k).map .list)) ∧
    (∀ k, k ∉ ws.keys → m'.get k = m.get k) := by
  obtain ⟨hin, hout⟩ := run_entries_ok ws.nodupKeys h
  refine ⟨fun k hk => ?_, hout⟩
  obtain ⟨e, he, rfl⟩ := List.mem_map.mp hk
  rw [mem_entries_iff.mp he]
  exact hin e he

/-- The loops that leave estimates. -/
theorem run_estimates_ok (hkeys : keys.Nodup)
    (h : (forM keys (estimateKey index inc)).run m = .ok ⟨⟩ m') :
    (∀ k ∈ keys, Written index (fun _ => newEstimateItem index inc)
      ((m.get k).map .list) ((m'.get k).map .list)) ∧
    (∀ k, k ∉ keys → m'.get k = m.get k) := by
  obtain ⟨hin, hout⟩ := forM_actsOn ShardedMap.keyed id (fun k _ => actsOn_updateEntry k _)
    (by rwa [List.map_id]) h
  refine ⟨fun k hk => ?_, fun k hk => hout k (by rwa [List.map_id])⟩
  obtain ⟨r, hr, hget⟩ := hin k hk
  simp only [id_eq] at hr hget
  cases hold : m.get k with
  | none =>
    rw [hold] at hr
    cases hr
  | some item =>
    rw [hold] at hr hget
    obtain ⟨item', hitem, rfl⟩ := map_eq_ok.mp hr
    rw [hget]
    exact ⟨.list item, .list item', rfl, MultiVersionValue.setEstimate_ok
      (map_eq_ok.mpr ⟨item', hitem, rfl⟩), rfl⟩

/-- Removing a version again changes nothing. -/
theorem removeKey_idem (index : ℕ) (ws : WriteSet) (k : Bytes)
    (old r r' : Option MultiVersionListItem)
    (hr : (if k ∈ ws then .ok none else match old with
      | none => .ok none
      | some mvVal => (mvVal.remove index).map some) = Except.ok (ε := Panic) r)
    (hr' : (if k ∈ ws then .ok none else match r.or old with
      | none => .ok none
      | some mvVal => (mvVal.remove index).map some) = Except.ok (ε := Panic) r') :
    r'.or (r.or old) = r.or old := by
  by_cases hws : k ∈ ws
  · rw [if_pos hws] at hr'
    obtain rfl := Except.ok.inj hr'
    rfl
  · rw [if_neg hws] at hr hr'
    cases old with
    | none =>
      obtain rfl := Except.ok.inj hr
      obtain rfl := Except.ok.inj hr'
      rfl
    | some mvVal =>
      obtain ⟨m, hm, rfl⟩ := map_eq_ok.mp hr
      obtain ⟨m', hm', rfl⟩ := map_eq_ok.mp hr'
      exact congrArg some (MultiVersionListItem.remove_idem hm hm')

/-- The loop of `removeOldWriteset`. -/
theorem run_removes_ok (h : (forM keys (removeKey index ws)).run m = .ok ⟨⟩ m') :
    (∀ k ∈ keys, k ∉ ws → Removed index ((m.get k).map .list) ((m'.get k).map .list)) ∧
    (∀ k, k ∈ ws ∨ k ∉ keys → m'.get k = m.get k) := by
  obtain ⟨hin, hout⟩ := forM_actsOn_of_idem ShardedMap.keyed
    (fun k _ => actsOn_updateEntry k _) (removeKey_idem index ws) h
  refine ⟨fun k hk hws => ?_, fun k hk => ?_⟩
  · obtain ⟨r, hr, hget⟩ := hin k hk
    rw [if_neg hws] at hr
    cases hold : m.get k with
    | none =>
      rw [hold] at hr hget
      obtain rfl := Except.ok.inj hr
      rw [hget]
      exact .inl ⟨rfl, rfl⟩
    | some item =>
      rw [hold] at hr hget
      obtain ⟨item', hitem, rfl⟩ := map_eq_ok.mp hr
      rw [hget]
      exact .inr ⟨.list item, .list item', rfl, MultiVersionValue.remove_ok
        (map_eq_ok.mpr ⟨item', hitem, rfl⟩), rfl⟩
  · by_cases hmem : k ∈ keys
    · obtain ⟨r, hr, hget⟩ := hin k hmem
      rw [if_pos (hk.resolve_right fun h => h hmem)] at hr
      obtain rfl := Except.ok.inj hr
      exact hget
    · exact hout k hmem

/-- `removeOldWriteset` removes the versions of the recorded keys. -/
theorem removeOldWriteset_ok (h : (removeOldWriteset index ws).run s = .ok ⟨⟩ s') :
    (∃ m, s' = { s with shardMap := m }) ∧ index < s.keysList.length ∧
    (∀ k ∈ s.writesetKeys index, k ∉ ws → Removed index (s.item k) (s'.item k)) ∧
    (∀ k, k ∈ ws ∨ k ∉ s.writesetKeys index → s'.item k = s.item k) := by
  rw [removeOldWriteset, run_bind_eq_ok] at h
  obtain ⟨keys, t, hold, h⟩ := h
  obtain ⟨hlt, rfl, rfl⟩ := run_oldKeys_eq_ok.mp hold
  obtain ⟨m, hm, rfl⟩ := run_onShards_eq_ok.mp h
  obtain ⟨hrem, hkeep⟩ := run_removes_ok hm
  exact ⟨⟨m, rfl⟩, hlt, hrem, fun k hk => congrArg _ (hkeep k hk)⟩

/-- The keys of a write set are written and recorded, after others have been removed. -/
theorem listWrite_of_written {gone : List Bytes} {v : Bytes → ℕ → ValueItem}
    {writes : EStateM Panic ShardedMap PUnit}
    (hgone : ∀ k ∈ gone, k ∉ ws → Removed index (s.item k) (item { s with shardMap := m } k))
    (hkeep : ∀ k, k ∈ ws ∨ k ∉ gone → item { s with shardMap := m } k = s.item k)
    (hwrites : ∀ m', writes.run m = .ok ⟨⟩ m' →
      (∀ k ∈ ws.keys, Written index (v k) ((m.get k).map .list) ((m'.get k).map .list)) ∧
      ∀ k, k ∉ ws.keys → m'.get k = m.get k)
    (h : (onShards writes >>= fun _ => recordKeys index (sortStrings ws.keys)).run
      { s with shardMap := m } = .ok ⟨⟩ s') :
    ListWrite index gone (sortStrings ws.keys) v (sortStrings ws.keys) s s' := by
  obtain ⟨⟨⟩, u, hloop, h⟩ := run_bind_eq_ok.mp h
  obtain ⟨m', hm', rfl⟩ := run_onShards_eq_ok.mp hloop
  obtain ⟨hlt, rfl⟩ := run_recordKeys_eq_ok.mp h
  obtain ⟨hin, hout⟩ := hwrites m' hm'
  refine ⟨fun j => writesetKeys_record hlt j, fun k hk => ?_, fun k hk hnot => ?_,
    fun k hk hnot => ?_, List.length_modify .., rfl⟩
  · rw [mem_sortStrings] at hk
    have hwritten := hin k hk
    rwa [show (m.get k).map .list = s.item k from hkeep k (.inl hk)] at hwritten
  · rw [mem_sortStrings] at hnot
    have hrem := hgone k hk hnot
    rwa [show (ListStore.item { s with shardMap := m } k) =
      ListStore.item { s with shardMap := m' } k from congrArg _ (hout k hnot).symm] at hrem
  · rw [mem_sortStrings] at hk
    exact (congrArg _ (hout k hk)).trans (hkeep k (.inr hnot))

/-- The keys whose versions `SetWriteset` removes. -/
def goneKeys (s : ListStore π) (index : ℕ) (inc : ℤ) : List Bytes :=
  if 0 < inc then s.writesetKeys index else []

/-- `SetWriteset` in two parts: the optional removal, and the writes. -/
theorem setWriteset_eq (index : ℕ) (inc : ℤ) (ws : WriteSet) :
    (setWriteset index inc ws : EStateM Panic (ListStore π) PUnit) =
      (if 0 < inc then removeOldWriteset index ws else pure ⟨⟩) >>= fun _ =>
        if ws.keys.length = 0 then pure ⟨⟩
        else onShards (forM ws.entries (writeKey index inc)) >>= fun _ =>
          recordKeys index (sortStrings ws.keys) := by
  rw [setWriteset]
  split <;> rfl

/-- The state behind the removals. -/
theorem exists_removed
    (h : (if 0 < inc then removeOldWriteset index ws else pure ⟨⟩).run s = .ok ⟨⟩ s') :
    (∃ m, s' = { s with shardMap := m }) ∧
      (∀ k ∈ s.goneKeys index inc, k ∉ ws → Removed index (s.item k) (s'.item k)) ∧
      ∀ k, k ∈ ws ∨ k ∉ s.goneKeys index inc → s'.item k = s.item k := by
  rw [goneKeys]
  by_cases hinc : 0 < inc
  · rw [if_pos hinc] at h ⊢
    obtain ⟨hm, -, hgone, hkeep⟩ := removeOldWriteset_ok h
    exact ⟨hm, hgone, hkeep⟩
  · rw [if_neg hinc] at h ⊢
    obtain ⟨-, rfl⟩ := EStateM.Result.ok.inj h
    exact ⟨⟨s.shardMap, rfl⟩, fun k hk => absurd hk List.not_mem_nil, fun _ _ => rfl⟩

/-- **`SetWriteset`**: the old keys are removed for a positive incarnation only, and the new
keys are recorded only when there are any. -/
theorem setWriteset_ok (h : (setWriteset index inc ws).run s = .ok ⟨⟩ s') :
    ListWrite index (if 0 < inc then s.writesetKeys index else []) (sortStrings ws.keys)
      (fun k c => writtenItem index inc ((ws.lookup k).getD none) c)
      (if ws.keys = [] then s.writesetKeys index else sortStrings ws.keys) s s' := by
  rw [setWriteset_eq, run_bind_eq_ok] at h
  obtain ⟨⟨⟩, t, hrem, h⟩ := h
  obtain ⟨⟨m, rfl⟩, hgone, hkeep⟩ := exists_removed hrem
  split at h
  · next hempty =>
    have hnil := List.length_eq_zero_iff.mp hempty
    obtain ⟨-, rfl⟩ := EStateM.Result.ok.inj h
    have hmem : ∀ k, k ∉ ws := fun k hk => by
      rw [AList.mem_keys, hnil] at hk
      exact absurd hk List.not_mem_nil
    rw [if_pos hnil]
    refine ⟨fun j => ?_, fun k hk => ?_, fun k hk _ => hgone k hk (hmem k),
      fun k _ hk => hkeep k (.inr hk), rfl, rfl⟩
    · split
      · next hj => rw [hj]; rfl
      · rfl
    · rw [mem_sortStrings] at hk
      exact absurd hk (hmem k)
  · next hne =>
    rw [if_neg fun hnil => hne (List.length_eq_zero_iff.mpr hnil)]
    exact listWrite_of_written hgone hkeep (fun _ => run_writes_ok) h

/-- **`SetEstimatedWriteset`**. -/
theorem setEstimatedWriteset_ok (h : (setEstimatedWriteset index inc ws).run s = .ok ⟨⟩ s') :
    ListWrite index (s.writesetKeys index) (sortStrings ws.keys)
      (fun _ _ => newEstimateItem index inc) (sortStrings ws.keys) s s' := by
  rw [setEstimatedWriteset] at h
  obtain ⟨⟨⟩, t, hrem, h⟩ := run_bind_eq_ok.mp h
  obtain ⟨⟨m, rfl⟩, -, hgone, hkeep⟩ := removeOldWriteset_ok hrem
  exact listWrite_of_written hgone hkeep (fun _ => run_estimates_ok ws.keys_nodup) h

/-- **`InvalidateWriteset`**. -/
theorem invalidateWriteset_ok (hnodup : (s.writesetKeys index).Nodup)
    (h : (invalidateWriteset index inc).run s = .ok ⟨⟩ s') :
    ListWrite index [] (s.writesetKeys index) (fun _ _ => newEstimateItem index inc)
      (s.writesetKeys index) s s' := by
  rw [invalidateWriteset] at h
  obtain ⟨keys, t, hold, h⟩ := run_bind_eq_ok.mp h
  obtain ⟨hlt, rfl, rfl⟩ := run_oldKeys_eq_ok.mp hold
  obtain ⟨m', hm', rfl⟩ := run_onShards_eq_ok.mp h
  obtain ⟨hin, hout⟩ := run_estimates_ok hnodup hm'
  exact ⟨eq_ite_of_eq rfl, hin, fun k hk => absurd hk List.not_mem_nil,
    fun k hk _ => congrArg _ (hout k hk), rfl, rfl⟩

end ListStore

end MelodiaStore
