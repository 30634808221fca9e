import MelodiaStore.ListBookkeeping

/-!
# Registration of Keys in the List Store

Keys of the list store are registered with `NewKey`, and two things depend on it. A registration
that finds a slice of length one replaces it by an empty slice with a place for every transaction,
so a version that was written before is lost. And a key that is written without a registration
makes `SetWriteset` panic in the middle of its work: the old versions are gone, the keys traversed
so far have their new versions, and the recorded keys are the old ones.

## Main results

* `ListStore.newKey_keeps_iff`: a registration changes no lookup exactly if the key has no slice of
  length one with a version in it.
* `ListStore.setWriteset_unregistered`: what `SetWriteset` has done when it meets a key that was not
  registered. Lookups from transactions up to `index` do not notice.
-/

namespace MelodiaStore

namespace MultiVersionListItem

variable {m : MultiVersionListItem}

/-- A slice without versions answers no lookup. -/
theorem lookups_of_empty (h : ∀ i, m.slot i = none) :
    m.getLatest = none ∧ ∀ j, (m.getLatestBeforeIndexExpansion j).1 = none := by
  refine ⟨?_, fun j => ?_⟩
  · rw [getLatest, scanDown_eq, latestBelow_eq_none_iff]
    intro i _
    rw [h i, Option.filter_none]
  · rw [getLatestBeforeIndexExpansion, scanDown_eq, latestBelow_eq_none_iff]
    intro i _
    rw [slot_expand, h i, Option.filter_none]

/-- A slice of length one has one place. -/
theorem slot_of_length_one (hlen : m.valueList.length = 1) (h : m.slot 0 = none) (i : ℕ) :
    m.slot i = none := by
  cases i with
  | zero => exact h
  | succ i => exact slot_eq_none_of_length_le (by omega)

/-- A write at `index` is not seen from the transactions up to it. -/
theorem getLatestBeforeIndex_of_put {m' : MultiVersionListItem} {index j : ℕ} {v : Option ValueItem}
    (hput : (MultiVersionValue.list m).Put ((MultiVersionValue.list m).clamp index) v (.list m'))
    (hj : j ≤ index) : m'.getLatestBeforeIndex j = m.getLatestBeforeIndex j := by
  have hfits : j < m'.valueList.length ↔ j < m.valueList.length := hput.fits_iff j
  rw [getLatestBeforeIndex, getLatestBeforeIndex]
  by_cases hlen : j ≥ m.valueList.length
  · rw [if_pos hlen, if_pos (by omega)]
  · rw [if_neg hlen, if_neg (by omega), scanDown_eq, scanDown_eq]
    refine latestBelow_congr fun i hi => ?_
    have hne : i ≠ m.clamp index := by
      rw [clamp]
      split <;> omega
    have hslot : m'.slot i = m.slot i := (hput.slot_eq i).trans (if_neg hne)
    rw [hslot]

/-- Its version is the latest one. -/
theorem getLatest_of_length_one (hlen : m.valueList.length = 1) : m.getLatest = m.slot 0 := by
  rw [getLatest, hlen, scanDown_eq, latestBelow, latestBelow, Option.or_none]
  cases m.slot 0 <;> rfl

end MultiVersionListItem

namespace ListStore

variable {π : Type} {s s' : ListStore π} {index : ℕ} {inc : ℤ} {ws : WriteSet}

/-! ### A registration that discards a version -/

/-- Two stores answer `GetLatest` and `GetLatestBeforeIndexExpansion` alike. -/
def SameLookups (s s' : ListStore π) : Prop :=
  ∀ k, s'.getLatest k = s.getLatest k ∧ ∀ j,
    (s'.getLatestBeforeIndexExpansion j k).1 = (s.getLatestBeforeIndexExpansion j k).1

theorem fst_getLatestBeforeIndexExpansion (s : ListStore π) (j : ℕ) (k : Bytes) :
    (s.getLatestBeforeIndexExpansion j k).1 =
      (s.shardMap.get k).bind fun mvVal => (mvVal.getLatestBeforeIndexExpansion j).1 := by
  rw [getLatestBeforeIndexExpansion]
  cases s.shardMap.get k <;> rfl

/-- **Registering a key** changes no lookup exactly if the key has no slice of length one with a
version in it. -/
theorem newKey_keeps_iff (s : ListStore π) (key : Bytes) (totalTask : ℕ) :
    SameLookups s (s.newKey key totalTask) ↔
      ∀ mvVal, s.shardMap.get key = some mvVal → mvVal.valueList.length = 1 →
        mvVal.slot 0 = none := by
  have hempty : ∀ size, (newMultiVersionListItem size).getLatest = none ∧
      ∀ j, ((newMultiVersionListItem size).getLatestBeforeIndexExpansion j).1 = none := fun size =>
    MultiVersionListItem.lookups_of_empty (MultiVersionListItem.slot_newMultiVersionListItem size)
  simp only [SameLookups, getLatest, fst_getLatestBeforeIndexExpansion, newKey,
    ShardedMap.get_update]
  constructor
  · intro h mvVal hget hlen
    have hlatest := (h key).1
    rw [if_pos rfl, hget] at hlatest
    dsimp only [Option.bind_some] at hlatest
    rw [if_pos hlen, Option.bind_some, (hempty totalTask).1,
      MultiVersionListItem.getLatest_of_length_one hlen] at hlatest
    exact hlatest.symm
  · intro h k
    by_cases hk : k = key
    · subst hk
      rw [if_pos rfl]
      cases hget : s.shardMap.get k with
      | none => exact hempty 1
      | some mvVal =>
        dsimp only [Option.bind_some]
        by_cases hlen : mvVal.valueList.length = 1
        · -- the slice that is replaced holds nothing
          obtain ⟨hlatest, hbefore⟩ := MultiVersionListItem.lookups_of_empty
            (MultiVersionListItem.slot_of_length_one hlen (h mvVal hget hlen))
          rw [if_pos hlen, hlatest]
          refine ⟨(hempty totalTask).1, fun j => ?_⟩
          rw [hbefore j]
          exact (hempty totalTask).2 j
        · rw [if_neg hlen]
          exact ⟨rfl, fun _ => rfl⟩
    · rw [if_neg hk]
      exact ⟨rfl, fun _ => rfl⟩

/-- **A version is discarded**: a key is registered, written by the first of two transactions, and
registered again. -/
theorem newKey_discards :
    ∃ s' : ListStore Unit,
      (setWriteset 0 0 (AList.singleton [1] (some [7]))).run
        ((newMultiVersionListStore () 2).newKey [1] 2) = .ok ⟨⟩ s' ∧
      s'.getLatest [1] = some (newValueItem 0 0 (some [7])) ∧
      (s'.newKey [1] 2).getLatest [1] = none := by
  refine exists_run_of_endsIn
    (p := fun s' => decide (s'.getLatest [1] = some (newValueItem 0 0 (some [7])) ∧
      (s'.newKey [1] 2).getLatest [1] = none)) (by decide +kernel) fun s' _ hs' => ?_
  exact of_decide_eq_true hs'

/-! ### A write set with a key that is not registered -/

variable {e : Panic} {k : Bytes} {m : MultiVersionListItem} {m' : ShardedMap}

/-- **What `SetWriteset` has done** when it was stopped behind the entries `done`: the old versions
are removed, these entries have their new versions, and everything else is as before, the recorded
keys included. -/
structure HalfWritten (index : ℕ) (inc : ℤ) (ws : WriteSet) (done : List ((_ : Bytes) × Slice))
    (s s' : ListStore π) : Prop where
  keysList_eq : s'.keysList = s.keysList
  parentStore_eq : s'.parentStore = s.parentStore
  written : ∀ e ∈ done, Written index (writtenItem index inc e.2) (s.item e.1) (s'.item e.1)
  removed : ∀ k ∈ s.goneKeys index inc, k ∉ ws → Removed index (s.item k) (s'.item k)
  kept : ∀ k, k ∉ done.map Sigma.fst → k ∈ ws ∨ k ∉ s.goneKeys index inc → s'.item k = s.item k

/-- The panic of a key that is not registered. -/
def mapGetNil : Panic := .text "map get nil"

/-- No operation on a slice panics like that. -/
theorem ne_mapGetNil_of_store {i : ℕ} {v : Option ValueItem} (h : m.store i v = .error e) :
    e ≠ mapGetNil := by
  rw [MultiVersionListItem.store] at h
  split at h
  · obtain rfl := Except.error.inj h
    decide
  · cases h

theorem ne_mapGetNil_of_setOrDelete {value : Slice} (h : m.setOrDelete index inc value = .error e) :
    e ≠ mapGetNil := by
  cases value with
  | none => exact ne_mapGetNil_of_store h
  | some v =>
    rw [MultiVersionListItem.setOrDelete, MultiVersionListItem.set, assertValidValue] at h
    split at h
    · cases h
      decide
    · exact ne_mapGetNil_of_store h

theorem map_list_eq_error {x : Except Panic MultiVersionListItem} :
    x.map some = .error e ↔ x = .error e := by
  cases x <;> simp [Except.map]

/-- Only a key without a slice does. -/
theorem get_eq_none_of_writeKey {entry : (_ : Bytes) × Slice} {m : ShardedMap}
    (h : (writeKey index inc entry).run m = .error mapGetNil m') :
    m.get entry.1 = none ∧ m' = m := by
  obtain ⟨hf, rfl⟩ := run_updateEntry_eq_error.mp h
  refine ⟨?_, rfl⟩
  cases hget : m'.get entry.1 with
  | none => rfl
  | some mvVal =>
    rw [hget] at hf
    exact absurd rfl (ne_mapGetNil_of_setOrDelete (map_list_eq_error.mp hf))

/-- The removals do not panic like that either. -/
theorem run_removeKey_ne {m : ShardedMap} : (removeKey index ws k).run m ≠ .error mapGetNil m' := by
  intro h
  obtain ⟨hf, -⟩ := run_updateEntry_eq_error.mp h
  by_cases hws : k ∈ ws
  · rw [if_pos hws] at hf
    cases hf
  · rw [if_neg hws] at hf
    cases hget : m.get k with
    | none =>
      rw [hget] at hf
      cases hf
    | some mvVal =>
      rw [hget] at hf
      exact absurd rfl (ne_mapGetNil_of_store (map_list_eq_error.mp hf))

/-- Removing the old keys meets no missing key. -/
theorem run_removeOldWriteset_ne : (removeOldWriteset index ws).run s ≠ .error mapGetNil s' := by
  intro h
  rw [removeOldWriteset, run_bind_eq_error] at h
  rcases h with h | ⟨keys, t, -, h⟩
  · rw [oldKeys, run_bind_of_ok (EStateM.run_get s)] at h
    cases hi : s.keysList[index]? with
    | none =>
      rw [hi] at h
      cases h
    | some keys =>
      rw [hi] at h
      cases h
  · obtain ⟨m, hloop, -⟩ := run_zoom_eq_error.mp h
    obtain ⟨pre, k, post, m', -, -, hk⟩ := forM_eq_error_iff.mp hloop
    exact run_removeKey_ne hk

/-- Recording keys does not panic like that. -/
theorem run_recordKeys_ne {keys : List Bytes} :
    (recordKeys index keys).run s ≠ .error mapGetNil s' := by
  intro h
  rw [recordKeys, modifyKeys, run_bind_of_ok (EStateM.run_get s)] at h
  split at h
  · cases h
  · cases h

/-- Where `SetWriteset` stops: the first entry whose key has no slice. -/
theorem exists_split_of_setWriteset (h : (setWriteset index inc ws).run s = .error mapGetNil s') :
    ∃ (done : List ((_ : Bytes) × Slice)) (missing : (_ : Bytes) × Slice)
      (rest : List ((_ : Bytes) × Slice)),
      ws.entries = done ++ missing :: rest ∧ s.item missing.1 = none ∧
        HalfWritten index inc ws done s s' := by
  rw [setWriteset_eq, run_bind_eq_error] at h
  rcases h with h | ⟨⟨⟩, t, hrem, h⟩
  · split at h
    · exact absurd h run_removeOldWriteset_ne
    · cases h
  obtain ⟨⟨m, rfl⟩, hgone, hkeep⟩ := exists_removed hrem
  split at h
  · cases h
  rcases run_bind_eq_error.mp h with h | ⟨⟨⟩, t, -, h⟩
  · obtain ⟨m', hloop, rfl⟩ := run_zoom_eq_error.mp h
    obtain ⟨done, missing, rest, m'', hsplit, hdone, hmissing⟩ := forM_eq_error_iff.mp hloop
    obtain ⟨hnone, rfl⟩ := get_eq_none_of_writeKey hmissing
    have hnodup : ((done ++ missing :: rest).map Sigma.fst).Nodup := hsplit ▸ ws.nodupKeys
    have hmem : ∀ e ∈ done ++ missing :: rest, e.1 ∈ ws := fun e he =>
      AList.mem_keys.mpr (List.mem_map_of_mem (hsplit ▸ he))
    rw [List.map_append, List.map_cons] at hnodup
    obtain ⟨hdoneNodup, -, hdisjoint⟩ := List.nodup_append.mp hnodup
    obtain ⟨hin, hout⟩ := run_entries_ok hdoneNodup hdone
    -- the entries of the write set are not touched by the removals
    have hbefore : ∀ e ∈ done ++ missing :: rest, (m.get e.1).map .list = s.item e.1 :=
      fun e he => hkeep e.1 (.inl (hmem e he))
    refine ⟨done, missing, rest, hsplit, ?_, rfl, rfl, fun e he => ?_, fun k hk hws => ?_,
      fun k hk hk' => ?_⟩
    · rw [← hbefore missing (by simp)]
      have hmiss : missing.1 ∉ done.map Sigma.fst := fun hd =>
        hdisjoint missing.1 hd missing.1 List.mem_cons_self rfl
      rw [← hout missing.1 hmiss, hnone]
      rfl
    · rw [← hbefore e (List.mem_append_left _ he)]
      exact hin e he
    · have hnot : k ∉ done.map Sigma.fst := by
        intro hd
        obtain ⟨e, he, rfl⟩ := List.mem_map.mp hd
        exact hws (hmem e (List.mem_append_left _ he))
      have hrem := hgone k hk hws
      rwa [show item { s with shardMap := m } k = item { s with shardMap := m' } k from
        congrArg _ (hout k hnot).symm] at hrem
    · exact (congrArg _ (hout k hk)).trans (hkeep k hk')
  · exact absurd h run_recordKeys_ne

/-- Keys that are bound to the same slice answer alike. -/
theorem get_eq_of_item_eq (h : s'.item k = s.item k) : s'.shardMap.get k = s.shardMap.get k :=
  Option.map_injective (fun _ _ he => MultiVersionValue.list.inj he) h

/-- A write at `index` is not seen from the transactions up to it. -/
theorem getLatestBeforeIndex_of_item {j : ℕ} (hj : j ≤ index)
    (h : s'.item k = s.item k ∨ ∃ item item' v, s.item k = some item ∧ s'.item k = some item' ∧
      item.Put (item.clamp index) v item') :
    s'.getLatestBeforeIndex j k = s.getLatestBeforeIndex j k := by
  rw [getLatestBeforeIndex, getLatestBeforeIndex]
  rcases h with h | ⟨item, item', v, hitem, hitem', hput⟩
  · rw [get_eq_of_item_eq h]
  · obtain ⟨m, hm, rfl⟩ := Option.map_eq_some_iff.mp hitem
    obtain ⟨m', hm', rfl⟩ := Option.map_eq_some_iff.mp hitem'
    rw [hm, hm']
    exact MultiVersionListItem.getLatestBeforeIndex_of_put hput hj

namespace HalfWritten

variable {done : List ((_ : Bytes) × Slice)}

/-- Lookups from the transactions up to `index` do not notice. -/
theorem getLatestBeforeIndex_eq (h : HalfWritten index inc ws done s s') {j : ℕ} (hj : j ≤ index)
    (k : Bytes) : s'.getLatestBeforeIndex j k = s.getLatestBeforeIndex j k := by
  refine getLatestBeforeIndex_of_item hj ?_
  by_cases hdone : k ∈ done.map Sigma.fst
  · obtain ⟨e, he, rfl⟩ := List.mem_map.mp hdone
    obtain ⟨item, item', hold, hput, hnew⟩ := h.written e he
    exact .inr ⟨item, item', _, hold, hnew, hput⟩
  · by_cases hkeep : k ∈ ws ∨ k ∉ s.goneKeys index inc
    · exact .inl (h.kept k hdone hkeep)
    · obtain ⟨hws, hgone⟩ := not_or.mp hkeep
      rcases h.removed k (not_not.mp hgone) hws with ⟨hold, hnew⟩ | ⟨item, item', hold, hput, hnew⟩
      · exact .inl (hnew.trans hold.symm)
      · exact .inr ⟨item, item', _, hold, hnew, hput⟩

/-- Keys that were neither removed nor reached answer as before. -/
theorem lookups_eq (h : HalfWritten index inc ws done s s') {k : Bytes}
    (hdone : k ∉ done.map Sigma.fst) (hkeep : k ∈ ws ∨ k ∉ s.goneKeys index inc) :
    s'.getLatest k = s.getLatest k ∧
      ∀ j, s'.getLatestBeforeIndex j k = s.getLatestBeforeIndex j k := by
  have hget := get_eq_of_item_eq (h.kept k hdone hkeep)
  exact ⟨by rw [getLatest, getLatest, hget],
    fun j => by rw [getLatestBeforeIndex, getLatestBeforeIndex, hget]⟩

end HalfWritten

/-- **A write set with a key that is not registered** is written up to this key, for every order in
which it is traversed. The recorded keys are as before. Lookups from the transactions up to `index`
are as before, and so are all lookups of keys that were neither removed nor reached. -/
theorem setWriteset_unregistered (h : (setWriteset index inc ws).run s = .error mapGetNil s') :
    ∃ (done : List ((_ : Bytes) × Slice)) (missing : (_ : Bytes) × Slice)
      (rest : List ((_ : Bytes) × Slice)),
      ws.entries = done ++ missing :: rest ∧ s.item missing.1 = none ∧
      HalfWritten index inc ws done s s' ∧
      (∀ i, s'.writesetKeys i = s.writesetKeys i) ∧
      (∀ j ≤ index, ∀ k, s'.getLatestBeforeIndex j k = s.getLatestBeforeIndex j k) ∧
      ∀ k, k ∉ done.map Sigma.fst → k ∈ ws ∨ k ∉ s.goneKeys index inc →
        s'.getLatest k = s.getLatest k ∧
          ∀ j, s'.getLatestBeforeIndex j k = s.getLatestBeforeIndex j k := by
  obtain ⟨done, missing, rest, hsplit, hmissing, hhalf⟩ := exists_split_of_setWriteset h
  refine ⟨done, missing, rest, hsplit, hmissing, hhalf, fun i => ?_,
    fun j hj k => hhalf.getLatestBeforeIndex_eq hj k, fun k => hhalf.lookups_eq⟩
  rw [writesetKeys, writesetKeys, hhalf.keysList_eq]

/-- A store with one of the two keys registered. -/
def oneRegistered : ListStore Unit := (newMultiVersionListStore () 2).newKey [1] 2

/-- The two keys, the registered one first. -/
def twoKeys : WriteSet := (AList.singleton [2] (some [8])).insert [1] (some [7])

/-- The transaction before the one that panics sees what it saw. -/
theorem setWriteset_unregistered_two :
    ∃ s', (setWriteset 0 0 twoKeys).run oneRegistered = .error mapGetNil s' ∧
      s'.getLatestBeforeIndex 0 [1] = oneRegistered.getLatestBeforeIndex 0 [1] := by
  obtain ⟨e, s', hrun, he⟩ := @exists_of_panicsIn Panic (ListStore Unit) PUnit
    (setWriteset 0 0 twoKeys) oneRegistered (fun e _ => decide (e = mapGetNil)) (by decide +kernel)
  obtain rfl := of_decide_eq_true he
  obtain ⟨-, -, -, -, -, -, -, hbefore, -⟩ := setWriteset_unregistered hrun
  exact ⟨s', hrun, hbefore 0 le_rfl [1]⟩

/-- **`SetWriteset` is not all-or-nothing**: it panics at the second key, and the first one has its
new version. -/
theorem setWriteset_half_done :
    ∃ s', (setWriteset 0 0 twoKeys).run oneRegistered = .error mapGetNil s' ∧
      oneRegistered.getLatest [1] = none ∧
      s'.getLatest [1] = some (newValueItem 0 0 (some [7])) := by
  obtain ⟨e, s', hrun, he⟩ := @exists_of_panicsIn Panic (ListStore Unit) PUnit
    (setWriteset 0 0 twoKeys) oneRegistered (fun e s' => decide (e = mapGetNil ∧
      oneRegistered.getLatest [1] = none ∧
      s'.getLatest [1] = some (newValueItem 0 0 (some [7])))) (by decide +kernel)
  obtain ⟨rfl, hbefore, hafter⟩ := of_decide_eq_true he
  exact ⟨s', hrun, hbefore, hafter⟩

end ListStore

end MelodiaStore
