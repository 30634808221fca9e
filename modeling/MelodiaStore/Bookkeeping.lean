import MelodiaStore.History

/-!
# Bookkeeping of Write Sets

The two maps of a `Store` index the same versions by key and by transaction. This module
proves that they stay in step over every run.

Two invariants are used, both derived from `WriteStep`:

* `Recorded` holds in every reachable state, whatever indices and sizes the operations are
  called with: a version that a lookup can see is kept in the place of its transaction and
  recorded among that transaction's keys. Only the last slot of a slice, which no lookup
  reads, may hold a clamped entry.
* `Tracks totalTask ops` holds after the history `ops` when all indices are below
  `totalTask`: every slice is long enough, and the store holds exactly the write sets and
  the versions of the history.

## Main results

* `Store.writeset_bookkeeping`: the recorded keys of a transaction are sorted, they are the
  keys with an entry of its index, and such an entry is what the last operation at that
  index has left.
-/

namespace MelodiaStore

variable {π : Type} {versionList : Bool} {totalTask index : ℕ} {item' fresh : MultiVersionValue}
  {e : ValueItem} {keys : List Bytes} {v : Bytes → ℕ → ValueItem} {s s' : Store π}
  {ops pre : List StoreOp}

/-! ### What a write does to a key -/

/-- A version that lookups can see, after a write at `index`, is the one that was written, and
then the write was not clamped; or it was there before. -/
theorem MultiVersionValue.Put.visible_cases {item : MultiVersionValue} {i : ℕ}
    {w : Option ValueItem} (hput : item.Put (item.clamp index) w item') (hfits : item'.fits (i + 1))
    (hslot : item'.slot i = some e) :
    (i = index ∧ item.clamp index = index ∧ w = some e) ∨
      (i ≠ index ∧ item.fits (i + 1) ∧ item.slot i = some e) := by
  rw [hput.fits_iff] at hfits
  rw [hput.slot_eq] at hslot
  by_cases hi : i = index
  · subst hi
    have hclamp := clamp_of_fits (fits_of_le hfits (Nat.le_succ i))
    rw [hclamp, if_pos rfl] at hslot
    exact .inl ⟨rfl, hclamp, hslot⟩
  · rw [if_neg (clamp_ne hfits hi)] at hslot
    exact .inr ⟨hi, hfits, hslot⟩

section

variable (h : WriteStep index fresh keys v s s')
include h

variable {k : Bytes}

/-- A write leaves a key that it does not write without its version, or as it is. -/
theorem WriteStep.exists_of_not_written (hk : k ∉ keys)
    (hitem' : s'.multiVersionMap.lookup k = some item') :
    ∃ item, s.multiVersionMap.lookup k = some item ∧ (∀ j, item'.fits j ↔ item.fits j) ∧
      ∀ j e, item'.slot j = some e → item.slot j = some e := by
  by_cases hold : k ∈ s.writesetKeys index
  · rcases h.removed k hk hold with ⟨-, hnone⟩ | ⟨item, new, hitem, hput, hnew⟩
    · rw [hnone] at hitem'
      cases hitem'
    · obtain rfl : new = item' := Option.some.inj (hnew.symm.trans hitem')
      refine ⟨item, hitem, hput.fits_iff, fun j e he => ?_⟩
      rw [hput.slot_eq] at he
      split at he
      · cases he
      · exact he
  · rw [h.kept k hk hold] at hitem'
    exact ⟨item', hitem', fun _ => Iff.rfl, fun _ _ he => he⟩

/-- It does not bind it, or unbind it. -/
theorem WriteStep.lookup_eq_none_of_not_written (hk : k ∉ keys) :
    s'.multiVersionMap.lookup k = none ↔ s.multiVersionMap.lookup k = none := by
  by_cases hold : k ∈ s.writesetKeys index
  · rcases h.removed k hk hold with ⟨hnone, hnone'⟩ | ⟨item, new, hitem, -, hnew⟩
    · rw [hnone, hnone']
    · rw [hitem, hnew]
      exact iff_of_false (Option.some_ne_none _) (Option.some_ne_none _)
  · rw [h.kept k hk hold]

/-- A key that it writes has the places that it had, with one version that is new. -/
theorem WriteStep.exists_of_written (hk : k ∈ keys)
    (hitem' : s'.multiVersionMap.lookup k = some item') :
    (∀ j, item'.fits j ↔ ((s.multiVersionMap.lookup k).getD fresh).fits j) ∧
      ∀ j e, item'.slot j = some e →
        (∃ c, e = v k c) ∨ ((s.multiVersionMap.lookup k).getD fresh).slot j = some e := by
  obtain ⟨new, hput, hnew⟩ := h.written k hk
  obtain rfl : new = item' := Option.some.inj (hnew.symm.trans hitem')
  refine ⟨hput.fits_iff, fun j e he => ?_⟩
  rw [hput.slot_eq] at he
  split at he
  · exact .inl ⟨_, (Option.some.inj he).symm⟩
  · exact .inr he

/-- A place that all keys have is there after the write, if the keys it makes have it. -/
theorem WriteStep.fits {j : ℕ} (hs : ∀ k item, s.multiVersionMap.lookup k = some item → item.fits j)
    (hfresh : ∀ k ∈ keys, s.multiVersionMap.lookup k = none → fresh.fits j)
    (hitem' : s'.multiVersionMap.lookup k = some item') : item'.fits j := by
  by_cases hk : k ∈ keys
  · refine ((h.exists_of_written hk hitem').1 j).mpr ?_
    cases hold : s.multiVersionMap.lookup k with
    | none => exact hfresh k hk hold
    | some item => exact hs k item hold
  · obtain ⟨item, hitem, hsame, -⟩ := h.exists_of_not_written hk hitem'
    exact (hsame j).mpr (hs k item hitem)

end

/-! ### The invariant of every reachable state -/

variable {key : Bytes} {parent : π} {op : StoreOp} {inc : ℤ}

/-- Every version a lookup can see is in its transaction's place and recorded there. -/
structure Recorded (s : Store π) : Prop where
  sorted : ∀ i, (s.writesetKeys i).Pairwise (· < ·)
  visible : ∀ k item i e, s.multiVersionMap.lookup k = some item → item.fits (i + 1) →
    item.slot i = some e → e.index = i ∧ k ∈ s.writesetKeys i

/-- No key is recorded twice. -/
theorem Recorded.nodup (h : Recorded s) (i : ℕ) : (s.writesetKeys i).Nodup :=
  (h.sorted i).imp ne_of_lt

/-- A new store. -/
theorem recorded_new (parent : π) : Recorded (newMultiVersionStore parent) where
  sorted _ := List.Pairwise.nil
  visible _ _ _ _ h := absurd h (by simp [newMultiVersionStore])

/-- An operation that writes versions keeps the invariant. -/
theorem WriteStep.recorded (h : WriteStep index fresh keys v s s') (hs : Recorded s)
    (hkeys : keys.Pairwise (· < ·)) (hfresh : ∀ i, fresh.slot i = none)
    (hv : ∀ k, (v k index).index = index) : Recorded s' where
  sorted i := by
    rw [h.writesetKeys_eq]
    split
    · exact hkeys
    · exact hs.sorted i
  visible k item' i e hitem' hfits hslot := by
    rw [h.writesetKeys_eq]
    by_cases hk : k ∈ keys
    · obtain ⟨new, hput, hnew⟩ := h.written k hk
      obtain rfl : new = item' := Option.some.inj (hnew.symm.trans hitem')
      rcases hput.visible_cases hfits hslot with ⟨rfl, hclamp, he⟩ | ⟨hi, hfits, hslot⟩
      · rw [hclamp] at he
        obtain rfl := Option.some.inj he
        exact ⟨hv k, by rw [if_pos rfl]; exact hk⟩
      · rw [if_neg hi]
        cases hold : s.multiVersionMap.lookup k with
        | none =>
          rw [hold, Option.getD_none, hfresh] at hslot
          cases hslot
        | some item =>
          rw [hold, Option.getD_some] at hslot hfits
          exact hs.visible k item i e hold hfits hslot
    · by_cases hold : k ∈ s.writesetKeys index
      · rcases h.removed k hk hold with ⟨-, hnone⟩ | ⟨item, new, hitem, hput, hnew⟩
        · rw [hnone] at hitem'
          cases hitem'
        · obtain rfl : new = item' := Option.some.inj (hnew.symm.trans hitem')
          rcases hput.visible_cases hfits hslot with ⟨-, -, he⟩ | ⟨hi, hfits, hslot⟩
          · cases he
          · rw [if_neg hi]
            exact hs.visible k item i e hitem hfits hslot
      · rw [h.kept k hk hold] at hitem'
        obtain ⟨hidx, hmem⟩ := hs.visible k item' i e hitem' hfits hslot
        refine ⟨hidx, ?_⟩
        have hi : i ≠ index := fun hi => hold (hi ▸ hmem)
        rw [if_neg hi]
        exact hmem

/-- The states of a store: any sequence of operations, with any indices, incarnations and
sizes, each of which returns. -/
inductive Store.Reachable (versionList : Bool) (parent : π) : Store π → Prop
  | new : Reachable versionList parent (newMultiVersionStore parent)
  | setWriteset {s s' : Store π} (index : ℕ) (inc : ℤ) (ws : WriteSet) (totalTask : ℕ) :
      Reachable versionList parent s →
      (Store.setWriteset versionList index inc ws totalTask).run s = .ok ⟨⟩ s' →
      Reachable versionList parent s'
  | invalidateWriteset {s s' : Store π} (index : ℕ) (inc : ℤ) (totalTask : ℕ) :
      Reachable versionList parent s →
      (Store.invalidateWriteset index inc totalTask).run s = .ok ⟨⟩ s' →
      Reachable versionList parent s'
  | setEstimatedWriteset {s s' : Store π} (index : ℕ) (inc : ℤ) (ws : WriteSet) :
      Reachable versionList parent s →
      (Store.setEstimatedWriteset index inc ws).run s = .ok ⟨⟩ s' →
      Reachable versionList parent s'
  | newKey {s s' : Store π} (key : Bytes) :
      Reachable versionList parent s → (Store.newKey versionList key).run s = .ok ⟨⟩ s' →
      Reachable versionList parent s'
  | setReadset {s s' : Store π} (index : ℕ) (readset : ReadSet) :
      Reachable versionList parent s → (Store.setReadset index readset).run s = .ok ⟨⟩ s' →
      Reachable versionList parent s'
  | setIterateset {s s' : Store π} (index : ℕ) (iterateset : Iterateset) :
      Reachable versionList parent s →
      (Store.setIterateset index iterateset).run s = .ok ⟨⟩ s' →
      Reachable versionList parent s'

/-- Registering a key binds it to a container without versions. -/
theorem recorded_newKey (hs : Recorded s) (h : (Store.newKey versionList key).run s = .ok ⟨⟩ s') :
    Recorded s' := by
  rw [Store.newKey, EStateM.run_modify] at h
  obtain ⟨-, rfl⟩ := EStateM.Result.ok.inj h
  cases hl : s.multiVersionMap.lookup key with
  | some _ => exact hs
  | none =>
    refine ⟨hs.sorted, fun k item i e hitem hfits hslot => ?_⟩
    simp only [lookup_insert_ite] at hitem
    split at hitem
    · obtain rfl := Option.some.inj hitem
      cases versionList <;> cases hslot
    · exact hs.visible k item i e hitem hfits hslot

/-- **The weak invariant holds in every reachable state.** -/
theorem Store.Reachable.recorded (h : Store.Reachable versionList parent s) : Recorded s := by
  induction h with
  | new => exact recorded_new parent
  | setWriteset index inc ws totalTask _ hrun ih =>
    exact (Store.setWriteset_ok (ih.nodup index) hrun).recorded ih
      (sortStrings_pairwise ws.keys_nodup) (slot_newVersions versionList totalTask)
      fun k => index_writtenItem index inc _
  | invalidateWriteset index inc totalTask _ hrun ih =>
    exact (Store.invalidateWriteset_ok (ih.nodup index) hrun).recorded ih (ih.sorted index)
      (MultiVersionListItem.slot_newMultiVersionListItem totalTask) fun _ => rfl
  | setEstimatedWriteset index inc ws _ hrun ih =>
    exact (Store.setEstimatedWriteset_ok (ih.nodup index) hrun).recorded ih
      (sortStrings_pairwise ws.keys_nodup)
      (MultiVersionListItem.slot_newMultiVersionListItem Store.estimatedSize) fun _ => rfl
  | newKey key _ hrun ih => exact recorded_newKey ih hrun
  | setReadset index readset _ hrun ih =>
    rw [Store.setReadset, EStateM.run_modify] at hrun
    obtain ⟨-, rfl⟩ := EStateM.Result.ok.inj hrun
    exact ⟨ih.sorted, ih.visible⟩
  | setIterateset index iterateset _ hrun ih =>
    rw [Store.setIterateset, EStateM.run_modify] at hrun
    obtain ⟨-, rfl⟩ := EStateM.Result.ok.inj hrun
    exact ⟨ih.sorted, ih.visible⟩

/-- What a lookup below `index` finds is recorded below `index`. -/
theorem Recorded.of_getLatestBeforeIndex (hs : Recorded s)
    (h : s.getLatestBeforeIndex index key = .ok (some e)) :
    e.index < index ∧ key ∈ s.writesetKeys e.index ∧ s.slot key e.index = some e := by
  unfold Store.getLatestBeforeIndex at h
  cases hl : s.multiVersionMap.lookup key with
  | none => rw [hl] at h; cases h
  | some item =>
    simp only [hl] at h
    obtain ⟨i, hi, hfits, hslot, -⟩ := MultiVersionValue.exists_slot_of_getLatestBeforeIndex h
    obtain ⟨rfl, hmem⟩ := hs.visible key item i e hl hfits hslot
    exact ⟨hi, hmem, by rw [Store.slot, hl]; exact hslot⟩

/-! ### Runs of a block refine their history -/

/-- The store holds the history `ops` of a block of `totalTask` transactions: every key has
a place for each transaction, and what is recorded and what is in the places is what the
history says. -/
structure Tracks (totalTask : ℕ) (ops : List StoreOp) (s : Store π) : Prop where
  fits : ∀ k item, s.multiVersionMap.lookup k = some item → ∀ i < totalTask, item.fits i
  writesetKeys_eq : ∀ i, s.writesetKeys i = sortStrings (currentWriteset ops i).keys
  slot_eq : ∀ k i, s.slot k i = currentEntry ops i k

namespace Tracks

variable {totalTask : ℕ} {ops : List StoreOp} {s : Store π}

/-- The recorded keys are sorted. -/
theorem sorted (h : Tracks totalTask ops s) (i : ℕ) : (s.writesetKeys i).Pairwise (· < ·) := by
  rw [h.writesetKeys_eq]
  exact sortStrings_pairwise (currentWriteset ops i).keys_nodup

/-- No key is recorded twice. -/
theorem nodup (h : Tracks totalTask ops s) (i : ℕ) : (s.writesetKeys i).Nodup :=
  (h.sorted i).imp ne_of_lt

/-- What is recorded is the current write set. -/
theorem mem_writesetKeys (h : Tracks totalTask ops s) {i : ℕ} {k : Bytes} :
    k ∈ s.writesetKeys i ↔ k ∈ currentWriteset ops i := by
  rw [h.writesetKeys_eq, mem_sortStrings, AList.mem_keys]

/-- A new store. -/
theorem new (totalTask : ℕ) (parent : π) : Tracks totalTask [] (newMultiVersionStore parent) where
  fits _ _ h := absurd h (by simp [newMultiVersionStore])
  writesetKeys_eq _ := rfl
  slot_eq _ _ := rfl

/-- In a block a lookup finds the latest version of the history. -/
theorem getLatestBeforeIndex_eq (h : Tracks totalTask ops s) {j : ℕ} (hj : j < totalTask)
    (k : Bytes) :
    s.getLatestBeforeIndex j k = .ok (latestBelow (fun i => currentEntry ops i k) j) := by
  have hslot := h.slot_eq k
  unfold Store.getLatestBeforeIndex
  cases hl : s.multiVersionMap.lookup k with
  | none =>
    have hnone : latestBelow (fun i => currentEntry ops i k) j = none := by
      refine latestBelow_eq_none_iff.mpr fun i _ => ?_
      rw [← hslot, Store.slot, hl]
      rfl
    rw [hnone]
  | some item =>
    have hitem : item.slot = fun i => currentEntry ops i k := by
      funext i
      rw [← hslot, Store.slot, hl]
      rfl
    simp only [← hitem]
    refine MultiVersionValue.getLatestBeforeIndex_of_fits (h.fits k item hl j hj) ?_
    intro i e hi he
    rw [hitem] at he
    rwa [index_currentEntry he]

end Tracks

/-- **One operation rewrites one place of every key**: the place of `index` holds the
version written for a recorded key and nothing for any other, and no other place changes. -/
theorem WriteStep.slot_eq (h : WriteStep index fresh keys v s s') (hs : Tracks totalTask ops s)
    (hi : index < totalTask) (hfits : ∀ i < totalTask, fresh.fits i)
    (hfresh : ∀ i, fresh.slot i = none) (k : Bytes) (j : ℕ) :
    s'.slot k j =
      if j = index then (if k ∈ keys then some (v k index) else none) else s.slot k j := by
  by_cases hk : k ∈ keys
  · obtain ⟨new, hput, hnew⟩ := h.written k hk
    have hc : ((s.multiVersionMap.lookup k).getD fresh).clamp index = index := by
      refine MultiVersionValue.clamp_of_fits ?_
      cases hl : s.multiVersionMap.lookup k with
      | none => exact hfits index hi
      | some item => exact hs.fits k item hl index hi
    rw [hc] at hput
    rw [if_pos hk, Store.slot, hnew, Option.bind_some, hput.slot_eq]
    split
    · rfl
    · cases hl : s.multiVersionMap.lookup k with
      | none => rw [Option.getD_none, hfresh, Store.slot, hl]; rfl
      | some item => rw [Option.getD_some, Store.slot, hl]; rfl
  · rw [if_neg hk]
    by_cases hold : k ∈ s.writesetKeys index
    · rcases h.removed k hk hold with ⟨hnone, hnone'⟩ | ⟨item, new, hitem, hput, hnew⟩
      · simp only [Store.slot, hnone, hnone', Option.bind_none, ite_self]
      · rw [MultiVersionValue.clamp_of_fits (hs.fits k item hitem index hi)] at hput
        rw [Store.slot, hnew, Option.bind_some, hput.slot_eq, Store.slot, hitem,
          Option.bind_some]
    · rw [Store.slot, h.kept k hk hold, ← Store.slot]
      split
      · next hj =>
        subst hj
        rw [hs.slot_eq, currentEntry, if_neg fun hmem => hold (hs.mem_writesetKeys.mpr hmem)]
      · rfl

/-- A write step that does what `op` asks for carries the refinement on. -/
theorem Tracks.of_writeStep (hs : Tracks totalTask pre s) (h : WriteStep op.index fresh keys v s s')
    (hi : op.index < totalTask) (hfits : ∀ i < totalTask, fresh.fits i)
    (hfresh : ∀ i, fresh.slot i = none)
    (hkeys : keys = sortStrings (op.given.getD (currentWriteset pre op.index)).keys)
    (hv : ∀ k ∈ keys, v k op.index = op.leaves k) : Tracks totalTask (pre ++ [op]) s' where
  fits k item' hitem' i hit :=
    h.fits (fun k item hitem => hs.fits k item hitem i hit) (fun _ _ _ => hfits i hit) hitem'
  writesetKeys_eq i := by
    rw [h.writesetKeys_eq, currentWriteset_append, hs.writesetKeys_eq]
    simp only [eq_comm (a := i)]
    split
    · next hj => rw [hkeys, hj]
    · rfl
  slot_eq k i := by
    rw [h.slot_eq hs hi hfits hfresh, currentEntry_append, hs.slot_eq]
    simp only [eq_comm (a := i)]
    split
    · next hj =>
      have hmem : k ∈ keys ↔ k ∈ op.given.getD (currentWriteset pre i) := by
        rw [hkeys, mem_sortStrings, ← AList.mem_keys, hj]
      by_cases hk : k ∈ keys
      · rw [if_pos hk, if_pos (hmem.mp hk), hv k hk]
      · rw [if_neg hk, if_neg fun h => hk (hmem.mpr h)]
    · rfl

/-- Perform an operation on a store. -/
def StoreOp.perform (versionList : Bool) (totalTask : ℕ) :
    StoreOp → EStateM Panic (Store π) PUnit
  | setWriteset index inc ws => Store.setWriteset versionList index inc ws totalTask
  | invalidateWriteset index inc => Store.invalidateWriteset index inc totalTask
  | setEstimatedWriteset index inc ws => Store.setEstimatedWriteset index inc ws

/-- `SetWriteset` carries the refinement on. -/
theorem Tracks.setWriteset {ws : WriteSet} (hs : Tracks totalTask pre s) (hi : index < totalTask)
    (h : (Store.setWriteset versionList index inc ws totalTask).run s = .ok ⟨⟩ s') :
    Tracks totalTask (pre ++ [.setWriteset index inc ws]) s' :=
  hs.of_writeStep (Store.setWriteset_ok (hs.nodup index) h) hi (fun _ => fits_newVersions)
    (slot_newVersions versionList totalTask) rfl fun _ _ => rfl

/-- `InvalidateWriteset` carries the refinement on. -/
theorem Tracks.invalidateWriteset (hs : Tracks totalTask pre s) (hi : index < totalTask)
    (h : (Store.invalidateWriteset index inc totalTask).run s = .ok ⟨⟩ s') :
    Tracks totalTask (pre ++ [.invalidateWriteset index inc]) s' :=
  hs.of_writeStep (Store.invalidateWriteset_ok (hs.nodup index) h) hi
    (fun _ => MultiVersionValue.fits_newMultiVersionListItem.mpr)
    (MultiVersionListItem.slot_newMultiVersionListItem totalTask) (hs.writesetKeys_eq index)
    fun _ _ => rfl

/-- One operation below `totalTask` carries the refinement on. -/
theorem Tracks.step (htotal : totalTask ≤ 10000) (hi : op.index < totalTask)
    (hs : Tracks totalTask pre s) (h : (op.perform versionList totalTask).run s = .ok ⟨⟩ s') :
    Tracks totalTask (pre ++ [op]) s' := by
  cases op with
  | setWriteset index inc ws => exact hs.setWriteset hi h
  | invalidateWriteset index inc => exact hs.invalidateWriteset hi h
  | setEstimatedWriteset index inc ws =>
    exact hs.of_writeStep (Store.setEstimatedWriteset_ok (hs.nodup index) h) hi
      (fun i hit =>
        MultiVersionValue.fits_newMultiVersionListItem.mpr (lt_of_lt_of_le hit htotal))
      (MultiVersionListItem.slot_newMultiVersionListItem Store.estimatedSize) rfl fun _ _ => rfl

/-- **A run of a block refines its history.** -/
theorem Tracks.of_run (htotal : totalTask ≤ 10000) (hindex : ∀ op ∈ ops, op.index < totalTask)
    (h : (forM ops (StoreOp.perform versionList totalTask)).run (newMultiVersionStore parent) =
      .ok ⟨⟩ s) : Tracks totalTask ops s := by
  refine forM_ok_induction (Tracks totalTask) ?_ (fun pre op t t' hop ht hstep => ?_) h
  · exact Tracks.new totalTask parent
  · exact ht.step htotal (hindex op hop) hstep

/-! ### Bookkeeping -/

/-- All versions a store keeps for a key. -/
def Store.versions (s : Store π) (key : Bytes) : List ValueItem :=
  ((s.multiVersionMap.lookup key).map MultiVersionValue.entries).getD []

theorem Store.mem_versions : e ∈ s.versions key ↔ ∃ i, s.slot key i = some e := by
  unfold Store.versions Store.slot
  cases s.multiVersionMap.lookup key with
  | none => simp
  | some item => exact MultiVersionValue.mem_entries

/-- The versions kept after a history are those of the history. -/
theorem Tracks.mem_versions_iff (hs : Tracks totalTask ops s) :
    e ∈ s.versions key ↔ currentEntry ops e.index key = some e := by
  rw [Store.mem_versions]
  constructor
  · rintro ⟨i, hi⟩
    rw [hs.slot_eq] at hi
    rwa [index_currentEntry hi]
  · intro h
    exact ⟨e.index, by rw [hs.slot_eq, h]⟩

/-- **Bookkeeping of write sets.** After every run of a block on a new store, the recorded
keys of each transaction are strictly sorted, and they are the keys that have a version of
its index. That version is an estimate exactly when the last operation at the index leaves
estimates, and else it is the value, or for `nil` the deletion, of the write set that was
set last, with its incarnation. -/
theorem Store.writeset_bookkeeping (versionList : Bool) (totalTask : ℕ)
    (htotal : totalTask ≤ 10000) (ops : List StoreOp)
    (hindex : ∀ op ∈ ops, op.index < totalTask) (parent : π) {s : Store π}
    (hrun : (forM ops (StoreOp.perform versionList totalTask)).run
      (newMultiVersionStore parent) = .ok ⟨⟩ s) (i : ℕ) :
    (s.writesetKeys i).Pairwise (· < ·) ∧
    (∀ k, k ∈ s.writesetKeys i ↔ ∃ e ∈ s.versions k, e.index = i) ∧
    (∀ k, ∀ e ∈ s.versions k, e.index = i →
      (e.isEstimate = true ↔ ∃ op, lastOp ops i = some op ∧ op.estimates = true) ∧
      (e.isEstimate = false → ∃ inc ws v, lastOp ops i = some (.setWriteset i inc ws) ∧
        ws.lookup k = some v ∧ e.value = v ∧ e.isDeleted = v.isNone ∧ e.incarnation = inc)) := by
  have hs := Tracks.of_run htotal hindex hrun
  refine ⟨hs.sorted i, fun k => ?_, fun k e he hi => ⟨?_, fun hest => ?_⟩⟩
  · rw [hs.mem_writesetKeys, mem_currentWriteset_iff]
    constructor
    · rintro ⟨e, he⟩
      obtain rfl := index_currentEntry he
      exact ⟨e, hs.mem_versions_iff.mpr he, rfl⟩
    · rintro ⟨e, he, rfl⟩
      exact ⟨e, hs.mem_versions_iff.mp he⟩
  · subst hi
    have hentry := hs.mem_versions_iff.mp he
    have hk := mem_currentWriteset_iff.mpr ⟨e, hentry⟩
    rw [currentEntry, if_pos hk] at hentry
    obtain ⟨op, hop, hleaves⟩ := Option.map_eq_some_iff.mp hentry
    rw [hop, ← hleaves, StoreOp.isEstimate_leaves]
    simp only [Option.some.injEq, exists_eq_left']
  · subst hi
    obtain ⟨inc, ws, v, hop, hv, hw⟩ := currentEntry_eq_written (hs.mem_versions_iff.mp he) hest
    refine ⟨inc, ws, v, hop, hv, ?_⟩
    rw [hw]
    cases v <;> exact ⟨rfl, rfl, rfl⟩

/-- A run with a value, a deletion that is invalidated, and the second write set of a
transaction. -/
theorem Store.writeset_bookkeeping_run : ∃ s : Store Unit,
    (forM [StoreOp.setWriteset 0 0 (AList.singleton [1] (some [7])),
        StoreOp.setWriteset 1 0 (AList.singleton [1] none), StoreOp.invalidateWriteset 1 0,
        StoreOp.setWriteset 0 1 (AList.singleton [2] (some [8]))]
      (StoreOp.perform false 2)).run (newMultiVersionStore ()) = .ok ⟨⟩ s ∧
    s.writesetKeys 0 = [[2]] ∧ s.writesetKeys 1 = [[1]] ∧
    (∀ k, k ∈ s.writesetKeys 1 ↔ ∃ e ∈ s.versions k, e.index = 1) := by
  refine ⟨_, rfl, rfl, rfl, ?_⟩
  refine (Store.writeset_bookkeeping false 2 (by decide)
    [.setWriteset 0 0 (AList.singleton [1] (some [7])),
      .setWriteset 1 0 (AList.singleton [1] none), .invalidateWriteset 1 0,
      .setWriteset 0 1 (AList.singleton [2] (some [8]))] ?_ () rfl 1).2.1
  simp [StoreOp.index]

end MelodiaStore
