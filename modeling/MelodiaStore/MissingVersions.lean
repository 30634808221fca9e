import MelodiaStore.EstimateVisibility
import MelodiaStore.ListBookkeeping
import MelodiaStore.Replay

/-!
# Missing Versions in the Validation of Iterators

`validationIterator.Value` of `multiversion/memiterator.go` calls a method on the result of
`GetLatestBeforeIndex` without a check for `nil`. The keys for which it does so come from
`CollectIteratorItems`, that is, from the recorded keys of the transactions, whereas the
versions are kept by key. This module says when the two are in step, for both stores.

For a `Store` the offered keys are those recorded by the earlier transactions. A version of
each is there, but a lookup at an index past the end of the slice of the key does not see it:
`SetEstimatedWriteset` gives a new key 10000 places, whatever the number of transactions. A
`ListStore` offers the keys recorded by the transaction itself, so that a key which was
written after the iterator was made need not have an earlier version at all.

## Main results

* `validation_reads_versions`: in every run whose steps meet a condition, validation reads no
  missing version.
* `validation_misses_versions`: a run of either store in which it does.
-/

namespace MelodiaStore

/-! ### The goroutine, when no version is missing -/

namespace Validation

/-- The value of a key: that of the write set, or else that of its latest version. -/
def served (latest : Bytes → Except Panic (Option ValueItem)) (writeset : WriteSet)
    (key : Bytes) : Slice :=
  (writeset.lookup key).getD
    (match latest key with
    | .ok (some val) => val.value
    | _ => none)

/-- The key is in the write set, or has a version. -/
def Present (latest : Bytes → Except Panic (Option ValueItem)) (writeset : WriteSet)
    (key : Bytes) : Prop :=
  key ∈ writeset ∨ ∃ val, latest key = .ok (some val)

variable {latest : Bytes → Except Panic (Option ValueItem)} {writeset : WriteSet}

/-- A validation iterator over keys that are present serves their values. -/
theorem serves_present {L : Bytes → Prop} (hL : ∀ k, L k → Present latest writeset k)
    (B : Bytes × Bytes → Prop) :
    MergeIterator.Serves (callbacks latest writeset)
      (fun _ st => ∀ k v, st.readCache.lookup k = some v → v = served latest writeset k)
      (fun _ => False) (served latest writeset) L B where
  update := fun _ _ hI => .pure hI
  value := by
    intro R st k hk hI
    have hrun := run_value latest writeset k st
    cases hw : writeset.lookup k with
    | some v =>
      rw [hw] at hrun
      have hv : served latest writeset k = v := by rw [served, hw, Option.getD_some]
      rw [hv]
      exact .of_ok hrun hI
    | none =>
      cases hc : st.readCache.lookup k with
      | some v =>
        rw [hw, hc] at hrun
        rw [← hI k v hc]
        exact .of_ok hrun hI
      | none =>
        obtain ⟨val, hval⟩ := (hL k hk).resolve_left (AList.lookup_eq_none.mp hw)
        rw [hw, hc, hval] at hrun
        have hv : served latest writeset k = val.value := by
          rw [served, hw, Option.getD_none, hval]
        rw [hv]
        refine .of_ok hrun fun k' v' hk' => ?_
        simp only [withVersion, lookup_insert_ite] at hk'
        split at hk'
        · next heq => rw [heq, hv, Option.some.inj hk']
        · exact hI k' v' hk'

/-- **With a version for every offered key the goroutine reaches a verdict.** -/
theorem exists_replay {it : MergeIterator} (hw : it.Within (· ∈ it.cache) (· ∈ it.parent))
    (h : ∀ k ∈ it.cache, Present latest writeset k) (tracker : IterationTracker) {fuel : ℕ}
    (hfuel : it.parent.length + it.cache.length < fuel) :
    ∃ valid st, (replay (callbacks latest writeset) tracker fuel 0 it).run ⟨∅, []⟩ =
      .ok valid st := by
  have hlength : (it.entries (served latest writeset)).length < fuel :=
    lt_of_le_of_lt (length_overlay_le hw.base_sorted hw.keys_sorted) hfuel
  obtain ⟨st, hrun, -⟩ := (consults_replay (R := ∅) (s := ⟨∅, []⟩)
    (serves_present h (· ∈ it.parent)) tracker hw hlength
    (fun k v hk => by cases hk)).exists_run fun _ _ => id
  exact ⟨_, st, hrun⟩

end Validation

/-! ### The store -/

/-- A key stays in the map, with the versions at all places but that of the write. -/
theorem WriteStep.exists_item {π : Type} {s s' : Store π} {c : ℕ} {fresh : MultiVersionValue}
    {keys : List Bytes} {v : Bytes → ℕ → ValueItem} (h : WriteStep c fresh keys v s s') {k : Bytes}
    {item : MultiVersionValue} (hitem : s.multiVersionMap.lookup k = some item) :
    ∃ item', s'.multiVersionMap.lookup k = some item' ∧
      ∀ i, i ≠ item.clamp c → item'.slot i = item.slot i := by
  by_cases hmem : k ∈ keys
  · obtain ⟨new, hput, hnew⟩ := h.written k hmem
    rw [hitem, Option.getD_some] at hput
    exact ⟨new, hnew, fun i hi => by rw [hput.slot_eq, if_neg hi]⟩
  · by_cases hold : k ∈ s.writesetKeys c
    · rcases h.removed k hmem hold with ⟨hnone, -⟩ | ⟨item₁, new, hitem₁, hput, hnew⟩
      · cases hnone.symm.trans hitem
      · obtain rfl : item₁ = item := Option.some.inj (hitem₁.symm.trans hitem)
        exact ⟨new, hnew, fun i hi => by rw [hput.slot_eq, if_neg hi]⟩
    · exact ⟨item, (h.kept k hmem hold).trans hitem, fun _ _ => rfl⟩

namespace Store

section Present

variable {π : Type} [LawfulKVStore π] {s : Store π} {index : ℕ} {tracker : IterationTracker}

/-- **Validation reads no missing version**: every key that the validation iterator can come
to is in the write set of the tracker, or has a version before the index, and the goroutine
reaches a verdict. -/
def ReadsVersions (s : Store π) (index : ℕ) (tracker : IterationTracker) : Prop :=
  (∀ k, s.InLayer index tracker k → k ∈ tracker.writeset ∨
      ∃ latest, s.getLatestBeforeIndex index k = .ok (some latest)) ∧
    ∃ valid st, (s.replayIterator index tracker).run ⟨∅, []⟩ = .ok valid st

/-- It is enough that the recorded keys have versions. -/
theorem readsVersions_of_recorded (hstart : tracker.startKey ≠ some [])
    (hstop : tracker.endKey ≠ some [])
    (h : ∀ i < index, ∀ k ∈ s.writesetKeys i,
      ∃ latest, s.getLatestBeforeIndex index k = .ok (some latest)) :
    s.ReadsVersions index tracker := by
  have hpresent : ∀ k, s.InLayer index tracker k → k ∈ tracker.writeset ∨
      ∃ latest, s.getLatestBeforeIndex index k = .ok (some latest) := by
    rintro k ⟨-, hk | ⟨i, hi, hk⟩⟩
    · exact .inl hk
    · exact .inr (h i hi k hk)
  refine ⟨hpresent, ?_⟩
  obtain ⟨it, hit⟩ := s.exists_replays index hstart hstop
  obtain ⟨valid, st, hrun⟩ := Validation.exists_replay hit.within
    (fun k hk => hpresent k (hit.mem_cache.mp hk)) tracker (Nat.lt_succ_self _)
  exact ⟨valid, st, by rw [hit.replayIterator_eq hstart hstop]; exact hrun⟩

end Present

variable {π : Type} {s s' : Store π} {index : ℕ}

/-- **What the writes keep**, up to an index: every key has a place for it, and the keys that
earlier transactions have recorded have their versions. -/
structure HoldsRecorded (index : ℕ) (s : Store π) : Prop where
  recorded : Recorded s
  fits : ∀ k item, s.multiVersionMap.lookup k = some item → item.fits index
  present : ∀ i < index, ∀ k ∈ s.writesetKeys i,
    ∃ item e, s.multiVersionMap.lookup k = some item ∧ item.slot i = some e

namespace HoldsRecorded

theorem new (index : ℕ) (parent : π) : HoldsRecorded index (newMultiVersionStore parent) where
  recorded := recorded_new parent
  fits _ _ h := absurd h (by simp [newMultiVersionStore])
  present _ _ _ hk := absurd hk List.not_mem_nil

/-- The recorded keys are in sight of a lookup at the index. -/
theorem exists_latest (h : HoldsRecorded index s) {i : ℕ} (hi : i < index) {k : Bytes}
    (hk : k ∈ s.writesetKeys i) :
    ∃ latest, s.getLatestBeforeIndex index k = .ok (some latest) := by
  obtain ⟨item, e, hitem, he⟩ := h.present i hi k hk
  have hfits := h.fits k item hitem
  have hlook : item.getLatestBeforeIndex index = .ok (latestBelow item.slot index) := by
    refine MultiVersionValue.getLatestBeforeIndex_of_fits hfits fun j e hj he => ?_
    rw [(h.recorded.visible k item j e hitem (MultiVersionValue.fits_of_le hfits hj) he).1]
    exact hj
  cases hlatest : latestBelow item.slot index with
  | none =>
    rw [latestBelow_eq_none_iff.mp hlatest i hi] at he
    cases he
  | some latest =>
    refine ⟨latest, ?_⟩
    rw [getLatestBeforeIndex, hitem]
    exact hlook.trans (congrArg Except.ok hlatest)

/-- An operation that makes new keys with a place for the index keeps the versions of the
others: where it is clamped, it is clamped past the places that matter. -/
theorem of_writeStep {c : ℕ} {fresh : MultiVersionValue} {keys : List Bytes}
    {v : Bytes → ℕ → ValueItem} (hs : HoldsRecorded index s) (h : WriteStep c fresh keys v s s')
    (hkeys : keys.Pairwise (· < ·)) (hslot : ∀ i, fresh.slot i = none)
    (hv : ∀ k, (v k c).index = c)
    (hfresh : ∀ k ∈ keys, s.multiVersionMap.lookup k = none → fresh.fits index) :
    HoldsRecorded index s' := by
  have hroom : ∀ k ∈ keys, ((s.multiVersionMap.lookup k).getD fresh).fits index := by
    intro k hk
    cases hold : s.multiVersionMap.lookup k with
    | none => exact hfresh k hk hold
    | some item => exact hs.fits k item hold
  refine ⟨h.recorded hs.recorded hkeys hslot hv, fun k item' hitem' => ?_, fun i hi k hk => ?_⟩
  · exact h.fits hs.fits hfresh hitem'
  · rw [h.writesetKeys_eq] at hk
    by_cases hic : i = c
    · -- the place of the operation itself
      subst hic
      rw [if_pos rfl] at hk
      obtain ⟨new, hput, hnew⟩ := h.written k hk
      rw [MultiVersionValue.clamp_of_fits (MultiVersionValue.fits_of_le (hroom k hk) hi.le)] at hput
      exact ⟨new, v k i, hnew, by rw [hput.slot_eq, if_pos rfl]⟩
    · rw [if_neg hic] at hk
      obtain ⟨item, e, hitem, he⟩ := hs.present i hi k hk
      obtain ⟨new, hnew, hslot⟩ := h.exists_item hitem
      have hne : i ≠ item.clamp c := MultiVersionValue.clamp_ne
        (MultiVersionValue.fits_of_le (hs.fits k item hitem) hi) hic
      exact ⟨new, e, hnew, (hslot i hne).trans he⟩

end HoldsRecorded

end Store

/-- The operation leaves room for the lookups at an index: `SetEstimatedWriteset` makes no new
key, unless the places it gives are enough. -/
def StoreOp.LeavesRoom {π : Type} (index : ℕ) (s : Store π) : StoreOp → Prop
  | setEstimatedWriteset _ _ ws => index < Store.estimatedSize ∨ ∀ k ∈ ws, k ∈ s.multiVersionMap
  | _ => True

namespace Store

variable {π : Type} {s s' : Store π} {index totalTask : ℕ} {versionList : Bool}

/-- **A write keeps the versions of the recorded keys in sight.** -/
theorem HoldsRecorded.step (hs : HoldsRecorded index s) (hindex : index < totalTask)
    {op : StoreOp} (hroom : op.LeavesRoom index s)
    (h : (op.perform versionList totalTask).run s = .ok ⟨⟩ s') : HoldsRecorded index s' := by
  cases op with
  | setWriteset c inc ws =>
    exact hs.of_writeStep (setWriteset_ok (hs.recorded.nodup c) h)
      (sortStrings_pairwise ws.keys_nodup) (slot_newVersions versionList totalTask)
      (fun k => index_writtenItem c inc _) fun _ _ _ => fits_newVersions hindex
  | invalidateWriteset c inc =>
    exact hs.of_writeStep (invalidateWriteset_ok (hs.recorded.nodup c) h) (hs.recorded.sorted c)
      (MultiVersionListItem.slot_newMultiVersionListItem totalTask) (fun _ => rfl)
      fun _ _ _ => MultiVersionValue.fits_newMultiVersionListItem.mpr hindex
  | setEstimatedWriteset c inc ws =>
    refine hs.of_writeStep (setEstimatedWriteset_ok (hs.recorded.nodup c) h)
      (sortStrings_pairwise ws.keys_nodup)
      (MultiVersionListItem.slot_newMultiVersionListItem estimatedSize) (fun _ => rfl)
      fun k hk hnone => ?_
    rcases hroom with hlt | hold
    · exact MultiVersionValue.fits_newMultiVersionListItem.mpr hlt
    · rw [mem_sortStrings, ← AList.mem_keys] at hk
      exact absurd (hold k hk) (AList.lookup_eq_none.mp hnone)

/-- **What a run keeps**, if all its steps leave room. -/
theorem HoldsRecorded.of_run {parent : π} {ops : List StoreOp} (hindex : index < totalTask)
    (hroom : ∀ pre op t, pre ++ [op] <+: ops →
      (forM pre (StoreOp.perform versionList totalTask)).run (newMultiVersionStore parent) =
        .ok ⟨⟩ t → op.LeavesRoom index t)
    (h : (forM ops (StoreOp.perform versionList totalTask)).run (newMultiVersionStore parent) =
      .ok ⟨⟩ s) : HoldsRecorded index s :=
  forM_ok_of_guarded (fun _ => HoldsRecorded index) (fun op t => op.LeavesRoom index t)
    (HoldsRecorded.new index parent)
    (fun _ _ _ _ _ ht hcond hstep => ht.step hindex hcond hstep) hroom h

end Store

/-! ### The list store -/

namespace ListStore

section Model

variable {π : Type} [KVStore π]

/-- The goroutine of `ListStore.validateIterator`, up to its last send. -/
def replayIterator (s : ListStore π) (index : ℕ) (tracker : IterationTracker) :
    EStateM Panic Validation Bool := do
  let sortedItems ← ofExcept (s.collectIteratorItems index)
  let items ← ofExcept (((tracker.writeset.keys.foldl addKey sortedItems).iterator
    tracker.startKey tracker.endKey tracker.ascending).mapError .db)
  let parent ← ofExcept (KVStore.iterator s.parentStore tracker.startKey tracker.endKey
    tracker.ascending)
  replay (Validation.callbacks (fun key => .ok (s.getLatestBeforeIndex index key))
    tracker.writeset) tracker (parent.length + items.length + 1) 0
    ⟨parent, items.map Prod.fst, tracker.ascending⟩

/-- A key of the range that the tracker's write set has, or that is recorded for the
transaction itself. -/
def InLayer {π : Type} (s : ListStore π) (index : ℕ) (tracker : IterationTracker) (key : Bytes) :
    Prop :=
  tracker.InRange key ∧ (key ∈ tracker.writeset ∨ index ≠ 0 ∧ key ∈ s.writesetKeys index)

/-- **Validation reads no missing version**: every key that the validation iterator can come
to is in the write set of the tracker, or has a version before the index, and the goroutine
reaches a verdict. -/
def ReadsVersions (s : ListStore π) (index : ℕ) (tracker : IterationTracker) : Prop :=
  (∀ k, s.InLayer index tracker k → k ∈ tracker.writeset ∨
      ∃ latest, s.getLatestBeforeIndex index k = some latest) ∧
    ∃ valid st, (s.replayIterator index tracker).run ⟨∅, []⟩ = .ok valid st

end Model

variable {π : Type} [LawfulKVStore π] {s : ListStore π} {index : ℕ} {tracker : IterationTracker}

section

variable (hindex : index < s.keysList.length) (hstart : tracker.startKey ≠ some [])
  (hstop : tracker.endKey ≠ some [])
include hindex hstart hstop

/-- The goroutine runs the loop on a merge iterator that comes to the keys of the layer. -/
theorem exists_replayIterator_eq :
    ∃ it : MergeIterator, it.Within (· ∈ it.cache) (· ∈ it.parent) ∧
      (∀ k, k ∈ it.cache ↔ s.InLayer index tracker k) ∧
      s.replayIterator index tracker =
        replay (Validation.callbacks (fun key => .ok (s.getLatestBeforeIndex index key))
          tracker.writeset) tracker (it.parent.length + it.cache.length + 1) 0 it := by
  obtain ⟨db, hdb, hmem⟩ := collectIteratorItems_eq (s := s) (.inr hindex)
  obtain ⟨parent, hparent⟩ : ∃ parent, KVStore.iterator s.parentStore tracker.startKey
      tracker.endKey tracker.ascending = .ok parent :=
    LawfulKVStore.exists_iterator s.parentStore tracker.startKey tracker.endKey tracker.ascending
      hstart hstop
  have hitems : (tracker.writeset.keys.foldl addKey db).iterator tracker.startKey tracker.endKey
      tracker.ascending = .ok _ := MemDB.iterator_eq_ok.mpr ⟨hstart, hstop, rfl⟩
  refine ⟨⟨parent, (tracker.writeset.keys.foldl addKey db).keysIn tracker.startKey tracker.endKey
    tracker.ascending, tracker.ascending⟩, layered_start hparent (MemDB.pairwise_keysIn _ _ _ _),
    fun k => ?_, ?_⟩
  · rw [MemDB.mem_keysIn, mem_foldl_addKey, hmem, ← AList.mem_keys, InLayer,
      IterationTracker.InRange]
    constructor
    · rintro ⟨hdom, ⟨h0, hk, hne⟩ | ⟨hk, hne⟩⟩
      · exact ⟨⟨hne, hdom⟩, .inr ⟨h0, hk⟩⟩
      · exact ⟨⟨hne, hdom⟩, .inl hk⟩
    · rintro ⟨⟨hne, hdom⟩, hk | ⟨h0, hk⟩⟩
      · exact ⟨hdom, .inr ⟨hk, hne⟩⟩
      · exact ⟨hdom, .inl ⟨h0, hk, hne⟩⟩
  · rw [replayIterator, hdb, ofExcept_ok_bind, hitems, hparent, MemDB.keysIn, List.length_map]
    rfl

/-- It is enough that the keys the transaction has recorded are in the tracker's write set. -/
theorem readsVersions_of_covered
    (h : ∀ k ∈ s.writesetKeys index, tracker.InRange k → k ∈ tracker.writeset) :
    s.ReadsVersions index tracker := by
  have hwritten : ∀ k, s.InLayer index tracker k → k ∈ tracker.writeset := by
    rintro k ⟨hrange, hk | ⟨-, hk⟩⟩
    · exact hk
    · exact h k hk hrange
  refine ⟨fun k hk => .inl (hwritten k hk), ?_⟩
  obtain ⟨it, hwithin, hcache, heq⟩ := exists_replayIterator_eq hindex hstart hstop
  rw [heq]
  exact Validation.exists_replay hwithin (fun k hk => .inl (hwritten k ((hcache k).mp hk))) tracker
    (Nat.lt_succ_self _)

end

/-- A call on a list store that is shared by the transactions of a block. -/
inductive BlockCall
  | newKey (key : Bytes)
  | write (op : StoreOp)

namespace BlockCall

/-- Perform a call, in a block of `totalTask` transactions. -/
def perform {π : Type} (totalTask : ℕ) : BlockCall → EStateM Panic (ListStore π) PUnit
  | newKey key => modify fun s => s.newKey key totalTask
  | write op => op.performList

/-- The call records for the transaction no key of the tracker's range that the tracker's write
set does not have: the transaction wrote none after it had made the iterator. -/
def Covered (index : ℕ) (tracker : IterationTracker) : BlockCall → Prop
  | newKey _ => True
  | write op => op.index = index →
      ∀ ws, op.given = some ws → ∀ k ∈ ws, tracker.InRange k → k ∈ tracker.writeset

end BlockCall

section Run

variable {π : Type} {s s' : ListStore π} {index totalTask : ℕ} {tracker : IterationTracker}

theorem mem_of_listWrite {gone keys recorded : List Bytes} {v : Bytes → ℕ → ValueItem} {i j : ℕ}
    (h : ListWrite i gone keys v recorded s s') {k : Bytes} (hk : k ∈ s'.writesetKeys j) :
    k ∈ s.writesetKeys j ∨ i = j ∧ k ∈ recorded := by
  rw [h.writesetKeys_eq] at hk
  split at hk
  · next hj => exact .inr ⟨hj.symm, hk⟩
  · exact .inl hk

/-- The keys that are recorded after an operation were recorded before, or the operation gave
them to its transaction. -/
theorem recorded_performList {op : StoreOp} (h : op.performList.run s = .ok ⟨⟩ s') :
    s'.keysList.length = s.keysList.length ∧ ∀ j, ∀ k ∈ s'.writesetKeys j,
      k ∈ s.writesetKeys j ∨ op.index = j ∧ ∃ ws, op.given = some ws ∧ k ∈ ws := by
  cases op with
  | setWriteset i inc ws =>
    have hw := setWriteset_ok h
    refine ⟨hw.length_eq, fun j k hk => ?_⟩
    rcases mem_of_listWrite hw hk with hold | ⟨rfl, hrec⟩
    · exact .inl hold
    · split at hrec
      · exact .inl hrec
      · rw [mem_sortStrings, ← AList.mem_keys] at hrec
        exact .inr ⟨rfl, ws, rfl, hrec⟩
  | invalidateWriteset i inc =>
    -- only the shards change, whatever the recorded keys are
    obtain ⟨keys, t, hold, hshards⟩ := run_bind_eq_ok.mp h
    obtain ⟨-, -, rfl⟩ := run_oldKeys_eq_ok.mp hold
    obtain ⟨m, -, rfl⟩ := run_onShards_eq_ok.mp hshards
    exact ⟨rfl, fun j k hk => .inl hk⟩
  | setEstimatedWriteset i inc ws =>
    have hw := setEstimatedWriteset_ok h
    refine ⟨hw.length_eq, fun j k hk => ?_⟩
    rcases mem_of_listWrite hw hk with hold | ⟨rfl, hrec⟩
    · exact .inl hold
    · rw [mem_sortStrings, ← AList.mem_keys] at hrec
      exact .inr ⟨rfl, ws, rfl, hrec⟩

/-- **What the calls keep**: the keys of the range that are recorded for the transaction are
in the write set of its tracker. -/
structure OwnCovered (totalTask index : ℕ) (tracker : IterationTracker) (s : ListStore π) :
    Prop where
  length_eq : s.keysList.length = totalTask
  covered : ∀ k ∈ s.writesetKeys index, tracker.InRange k → k ∈ tracker.writeset

theorem OwnCovered.new (totalTask index : ℕ) (tracker : IterationTracker) (parent : π) :
    OwnCovered totalTask index tracker (newMultiVersionListStore parent totalTask) where
  length_eq := List.length_replicate
  covered k hk := by
    have hnil : (newMultiVersionListStore parent totalTask).writesetKeys index = [] :=
      writesetKeys_registered parent totalTask [] index
    rw [hnil] at hk
    exact absurd hk List.not_mem_nil

/-- **A covered call keeps it.** -/
theorem OwnCovered.step (hs : OwnCovered totalTask index tracker s) {call : BlockCall}
    (hcov : call.Covered index tracker) (h : (call.perform totalTask).run s = .ok ⟨⟩ s') :
    OwnCovered totalTask index tracker s' := by
  cases call with
  | newKey key =>
    cases h
    exact ⟨hs.length_eq, hs.covered⟩
  | write op =>
    obtain ⟨hlength, hkeys⟩ := recorded_performList h
    refine ⟨hlength.trans hs.length_eq, fun k hk hrange => ?_⟩
    rcases hkeys index k hk with hold | ⟨hindex, ws, hgiven, hws⟩
    · exact hs.covered k hold hrange
    · exact hcov hindex ws hgiven k hws hrange

/-- **What a run keeps**, if all its calls are covered. -/
theorem OwnCovered.of_run {parent : π} {calls : List BlockCall}
    (hcov : ∀ call ∈ calls, call.Covered index tracker)
    (h : (forM calls (BlockCall.perform totalTask)).run
      (newMultiVersionListStore parent totalTask) = .ok ⟨⟩ s) :
    OwnCovered totalTask index tracker s :=
  forM_ok_of_guarded (fun _ => OwnCovered totalTask index tracker)
    (fun call _ => call.Covered index tracker) (OwnCovered.new totalTask index tracker parent)
    (fun _ _ _ _ _ ht hcall hstep => ht.step hcall hstep)
    (fun pre call _ hpre _ => hcov call (hpre.subset (by simp))) h

end Run

end ListStore

/-! ### Every run -/

/-- The bounds of a tracker are not empty: with an empty bound no iterator is made. -/
theorem VersionIndexedStore.bounds_of_iterator {μ : Type} [MultiVersionStore μ]
    {store : VersionIndexedStore} {s : μ} {start stop : Slice} {ascending : Bool}
    {it : TrackedIterator} {m : Mvkv μ}
    (h : (VersionIndexedStore.iterator start stop ascending).run ⟨store, s⟩ = .ok it m) :
    ∃ tracker, m.store.iterateset = store.iterateset ++ [tracker] ∧
      tracker.writeset = store.writeset ∧
      tracker.startKey ≠ some [] ∧ tracker.endKey ≠ some [] := by
  obtain ⟨items, parent, -, ⟨hstart, hstop⟩, -, -, rfl⟩ := run_iterator_eq_ok.mp h
  exact ⟨_, rfl, rfl, hstart, hstop⟩

/-- **Validation iterators read no missing version** in a state that a run on a new store has
led to, if its steps meet a condition. For a `Store`, every `SetEstimatedWriteset` leaves room for
the lookups at the index. For a `ListStore`, the transaction is given no key of the range of the
tracker that is not in the write set of the tracker. -/
theorem validation_reads_versions {π : Type} [LawfulKVStore π] (parent : π) {totalTask index : ℕ}
    (hindex : index < totalTask) (tracker : IterationTracker)
    (hstart : tracker.startKey ≠ some []) (hstop : tracker.endKey ≠ some []) :
    (∀ (versionList : Bool) (ops : List StoreOp) (s : Store π),
      (forM ops (StoreOp.perform versionList totalTask)).run (newMultiVersionStore parent) =
        .ok ⟨⟩ s →
      (∀ pre op t, pre ++ [op] <+: ops →
        (forM pre (StoreOp.perform versionList totalTask)).run (newMultiVersionStore parent) =
          .ok ⟨⟩ t → op.LeavesRoom index t) →
      s.ReadsVersions index tracker) ∧
    ∀ (calls : List ListStore.BlockCall) (s : ListStore π),
      (forM calls (ListStore.BlockCall.perform totalTask)).run
        (newMultiVersionListStore parent totalTask) = .ok ⟨⟩ s →
      (∀ call ∈ calls, call.Covered index tracker) →
      s.ReadsVersions index tracker := by
  refine ⟨fun versionList ops s hrun hroom => ?_, fun calls s hrun hcov => ?_⟩
  · have hs := Store.HoldsRecorded.of_run hindex hroom hrun
    exact Store.readsVersions_of_recorded hstart hstop fun i hi k hk => hs.exists_latest hi hk
  · have hs := ListStore.OwnCovered.of_run hcov hrun
    exact ListStore.readsVersions_of_covered (hindex.trans_eq hs.length_eq.symm) hstart hstop
      hs.covered

/-- Two transactions write a key that the second had written before it made its iterator. -/
theorem validation_reads_versions_run :
    let ws : WriteSet := AList.singleton [1] (some [7])
    let tracker := newIterationTracker none none true ws
    (∃ s : Store DbAdapter,
      (forM [.setWriteset 0 0 ws, .setEstimatedWriteset 0 1 ws, .setWriteset 1 0 ws]
        (StoreOp.perform true 2)).run (newMultiVersionStore .empty) = .ok ⟨⟩ s ∧
      s.ReadsVersions 1 tracker) ∧
    ∃ s : ListStore DbAdapter,
      (forM [.newKey [1], .newKey [1], .write (.setWriteset 0 0 ws),
        .write (.setWriteset 1 0 ws), .write (.invalidateWriteset 0 0)]
        (ListStore.BlockCall.perform 2)).run (newMultiVersionListStore .empty 2) = .ok ⟨⟩ s ∧
      s.ReadsVersions 1 tracker := by
  intro ws tracker
  obtain ⟨hstore, hlist⟩ := validation_reads_versions DbAdapter.empty (by decide : 1 < 2) tracker
    (by decide) (by decide)
  constructor
  · refine exists_run_of_endsIn (p := fun _ => true) (by decide +kernel) fun s hrun _ => ?_
    refine hstore true _ s hrun fun pre op t _ _ => ?_
    cases op with
    | setWriteset c inc ws => trivial
    | invalidateWriteset c inc => trivial
    | setEstimatedWriteset c inc ws => exact .inl (by decide)
  · refine exists_run_of_endsIn (p := fun _ => true) (by decide +kernel) fun s hrun _ => ?_
    refine hlist _ s hrun fun call hcall => ?_
    simp only [List.mem_cons, List.not_mem_nil, or_false] at hcall
    rcases hcall with rfl | rfl | rfl | rfl | rfl
    · trivial
    · trivial
    · exact fun h => absurd h (by decide)
    · rintro - _ ⟨⟩ k hk -
      exact hk
    · exact fun h => absurd h (by decide)

/-- **An estimated key that is new to the store** is recorded, and not seen from the index 10000
on. -/
theorem Store.exists_unseen_estimate {π : Type} (parent : π) (a : EstimatedWrite) :
    ∃ s, a.perform.run (newMultiVersionStore parent) = .ok ⟨⟩ s ∧ ∀ k ∈ a.writeset,
      k ∈ s.writesetKeys a.index ∧ ∀ j, estimatedSize ≤ j →
        s.getLatestBeforeIndex j k = .ok none := by
  have hnew := Registers.new true parent
  obtain ⟨s, hs⟩ : ∃ s, a.perform.run (newMultiVersionStore parent) = .ok ⟨⟩ s :=
    (exists_setEstimatedWriteset_iff (hnew.nodup a.index) (hnew.recordedFit a.index)).mpr
      fun k hk item hitem => by cases hitem
  have hstep := setEstimatedWriteset_ok (hnew.nodup a.index) hs
  refine ⟨s, hs, fun k hk => ?_⟩
  have hkeys : k ∈ sortStrings a.writeset.keys := mem_sortStrings.mpr (AList.mem_keys.mp hk)
  obtain ⟨item, -, hitem⟩ := hstep.written k hkeys
  have hslice : KeyEstimates (a.apply k fun _ => none) (s.multiVersionMap.lookup k) :=
    keyEstimates_of_writeStep (s := newMultiVersionStore parent) hstep List.not_mem_nil rfl
  rw [hitem] at hslice
  have hindex : ∀ n e, a.apply k (fun _ => none) n = some e → e.index = n := fun n e he =>
    (EstimatedWrite.eq_of_apply (fun _ _ h => by cases h) he).1
  refine ⟨by rw [hstep.writesetKeys_eq, if_pos rfl]; exact hkeys, fun j hj => ?_⟩
  rw [getLatestBeforeIndex, hitem]
  exact (EstimatedSlice.getLatestBeforeIndex hslice hindex j).trans
    (congrArg Except.ok (if_neg (Nat.not_lt.mpr hj)))

/-- **A later write of the transaction itself is read as a missing version**: it makes its
iterator, writes a key and publishes the write set, and the goroutine panics. And the estimate of
transaction `0` is not seen from transaction `10000`, to which it is offered. -/
theorem validation_misses_versions :
    (∃ (m : Mvkv (ListStore DbAdapter)) (s : ListStore DbAdapter),
      (do let _ ← VersionIndexedStore.iterator none none true
          VersionIndexedStore.set [1] (some [7])).run
        ⟨newVersionIndexedStore 1 0 ⟨1, []⟩ 2, registered DbAdapter.empty 2 [[1], [1]]⟩ = .ok ⟨⟩ m ∧
      (forM [.newKey [1], .newKey [1], .write (.setWriteset 1 0 m.store.writeset)]
        (ListStore.BlockCall.perform 2)).run (newMultiVersionListStore .empty 2) = .ok ⟨⟩ s ∧
      ∃ tracker ∈ m.store.iterateset, [1] ∉ tracker.writeset ∧
        s.getLatestBeforeIndex 1 [1] = none ∧
        ∃ st, (s.replayIterator 1 tracker).run ⟨∅, []⟩ = .error .nilInterface st) ∧
    ∃ s : Store DbAdapter,
      (forM [.setEstimatedWriteset 0 0 (AList.singleton [1] (some [7]))]
        (StoreOp.perform true 10001)).run (newMultiVersionStore .empty) = .ok ⟨⟩ s ∧
      s.InLayer 10000 (newIterationTracker none none true ∅) [1] ∧
      s.getLatestBeforeIndex 10000 [1] = .ok none := by
  constructor
  · obtain ⟨⟨⟩, m, hm, htest⟩ := @exists_of_endsIn Panic (Mvkv (ListStore DbAdapter)) PUnit
      (do let _ ← VersionIndexedStore.iterator none none true
          VersionIndexedStore.set [1] (some [7]))
      ⟨newVersionIndexedStore 1 0 ⟨1, []⟩ 2, registered DbAdapter.empty 2 [[1], [1]]⟩
      (fun _ m => endsIn (forM [.newKey [1], .newKey [1],
          .write (.setWriteset 1 0 m.store.writeset)] (ListStore.BlockCall.perform 2))
        (newMultiVersionListStore DbAdapter.empty 2)
        (fun _ s => decide (s.getLatestBeforeIndex 1 [1] = none) &&
          m.store.iterateset.any fun tracker => decide ([1] ∉ tracker.writeset) &&
            panicsIn (s.replayIterator 1 tracker) ⟨∅, []⟩ fun e _ => decide (e = .nilInterface)))
      (by decide +kernel)
    obtain ⟨⟨⟩, s, hs, htest⟩ := exists_of_endsIn htest
    rw [Bool.and_eq_true, decide_eq_true_eq, List.any_eq_true] at htest
    obtain ⟨hnone, tracker, hmem, htest⟩ := htest
    rw [Bool.and_eq_true, decide_eq_true_eq] at htest
    obtain ⟨e, st, hst, he⟩ := exists_of_panicsIn htest.2
    obtain rfl := of_decide_eq_true he
    exact ⟨m, s, hm, hs, tracker, hmem, htest.1, hnone, st, hst⟩
  · obtain ⟨s, hs, hkeys⟩ := Store.exists_unseen_estimate DbAdapter.empty
      ⟨0, 0, AList.singleton [1] (some [7])⟩
    obtain ⟨hrecorded, hunseen⟩ := hkeys [1] (List.mem_singleton_self _)
    refine ⟨s, ?_, ⟨⟨by decide, by decide⟩, .inr ⟨0, by decide, hrecorded⟩⟩,
      hunseen 10000 (by decide)⟩
    rw [List.forM_cons]
    exact run_bind_of_ok hs

end MelodiaStore
