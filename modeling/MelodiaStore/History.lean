import MelodiaStore.Store

/-!
# Histories of Write Sets

What a multi-version store is for, stated without its data structures. A history is the
list of the operations performed so far. From it alone one reads off the current write
set of every transaction and the version that each key should have for it:

* `currentWriteset ops i` is the write set that was given last for transaction `i`;
* `currentEntry ops i key` is the version of `key` that the last operation at `i` leaves.

Both store implementations are compared with these functions.
-/

namespace MelodiaStore

/-- The operations that write versions. -/
inductive StoreOp
  | setWriteset (index : ℕ) (incarnation : ℤ) (writeset : WriteSet)
  | invalidateWriteset (index : ℕ) (incarnation : ℤ)
  | setEstimatedWriteset (index : ℕ) (incarnation : ℤ) (writeset : WriteSet)

namespace StoreOp

/-- The transaction an operation is about. -/
def index : StoreOp → ℕ
  | setWriteset index _ _ => index
  | invalidateWriteset index _ => index
  | setEstimatedWriteset index _ _ => index

/-- The operation leaves estimates behind. -/
def estimates : StoreOp → Bool
  | setWriteset _ _ _ => false
  | invalidateWriteset _ _ => true
  | setEstimatedWriteset _ _ _ => true

/-- The write set an operation gives to its transaction. -/
def given : StoreOp → Option WriteSet
  | setWriteset _ _ ws => some ws
  | invalidateWriteset _ _ => none
  | setEstimatedWriteset _ _ ws => some ws

/-- The version an operation leaves of a key of the current write set. -/
def leaves (key : Bytes) : StoreOp → ValueItem
  | setWriteset index inc ws => writtenItem index inc ((ws.lookup key).getD none) index
  | invalidateWriteset index inc => newEstimateItem index inc
  | setEstimatedWriteset index inc _ => newEstimateItem index inc

theorem index_leaves (key : Bytes) (op : StoreOp) : (op.leaves key).index = op.index := by
  cases op with
  | setWriteset index inc ws =>
    simp only [leaves, StoreOp.index]
    cases (ws.lookup key).getD none <;> rfl
  | invalidateWriteset index inc => rfl
  | setEstimatedWriteset index inc ws => rfl

theorem isEstimate_leaves (key : Bytes) (op : StoreOp) :
    (op.leaves key).isEstimate = op.estimates := by
  cases op with
  | setWriteset index inc ws =>
    simp only [leaves]
    cases (ws.lookup key).getD none <;> rfl
  | invalidateWriteset index inc => rfl
  | setEstimatedWriteset index inc ws => rfl

end StoreOp

/-- The last operation of a history at an index. -/
def lastOp (ops : List StoreOp) (i : ℕ) : Option StoreOp :=
  (ops.filter fun op => op.index == i).getLast?

/-- The write set given last for an index, empty when there is none. -/
def currentWriteset (ops : List StoreOp) (i : ℕ) : WriteSet :=
  ((ops.filter fun op => op.index == i).filterMap StoreOp.given).getLast?.getD ∅

/-- The version of a key that the last operation at an index has left. -/
def currentEntry (ops : List StoreOp) (i : ℕ) (key : Bytes) : Option ValueItem :=
  if key ∈ currentWriteset ops i then (lastOp ops i).map (StoreOp.leaves key) else none

section

variable (ops : List StoreOp) (op : StoreOp) (i : ℕ)

/-- The last operation after one more. -/
theorem lastOp_append :
    lastOp (ops ++ [op]) i = if op.index = i then some op else lastOp ops i := by
  simp only [lastOp, List.filter_append]
  split
  · next h => simp [h]
  · next h => simp [h]

/-- The write set after one more operation. -/
theorem currentWriteset_append :
    currentWriteset (ops ++ [op]) i =
      if op.index = i then op.given.getD (currentWriteset ops i) else currentWriteset ops i := by
  simp only [currentWriteset, List.filter_append]
  split
  · next h => cases hg : op.given <;> simp [h, hg]
  · next h => simp [h]

/-- One more operation changes the versions of its own transaction only. -/
theorem currentEntry_append (key : Bytes) :
    currentEntry (ops ++ [op]) i key =
      if op.index = i then
        if key ∈ op.given.getD (currentWriteset ops i) then some (op.leaves key) else none
      else currentEntry ops i key := by
  simp only [currentEntry, lastOp_append, currentWriteset_append]
  split <;> rfl

end

variable {ops : List StoreOp} {i : ℕ} {key : Bytes} {op : StoreOp} {e : ValueItem}

theorem index_of_lastOp (h : lastOp ops i = some op) : op.index = i := by
  have hmem := List.mem_of_getLast? h
  simpa using (List.mem_filter.mp hmem).2

/-- A version has the index of its writer. -/
theorem index_currentEntry (h : currentEntry ops i key = some e) : e.index = i := by
  unfold currentEntry at h
  split at h
  · obtain ⟨op, hop, rfl⟩ := Option.map_eq_some_iff.mp h
    rw [StoreOp.index_leaves, index_of_lastOp hop]
  · cases h

/-- The keys of the current write set are those with a version. -/
theorem mem_currentWriteset_iff :
    key ∈ currentWriteset ops i ↔ ∃ e, currentEntry ops i key = some e := by
  unfold currentEntry
  constructor
  · intro h
    cases hop : lastOp ops i with
    | some op => exact ⟨op.leaves key, by rw [if_pos h]; rfl⟩
    | none =>
      -- without an operation at the index no write set was given
      have hnil : (ops.filter fun op => op.index == i) = [] := List.getLast?_eq_none_iff.mp hop
      rw [currentWriteset, hnil] at h
      exact absurd h (AList.notMem_empty key)
  · rintro ⟨e, he⟩
    by_contra h
    rw [if_neg h] at he
    cases he

/-- After a `SetWriteset` its write set is the current one. -/
theorem currentWriteset_of_lastOp {ws : WriteSet} (h : lastOp ops i = some op)
    (hgiven : op.given = some ws) : currentWriteset ops i = ws := by
  obtain ⟨pre, hpre⟩ := List.getLast?_eq_some_iff.mp h
  rw [currentWriteset, hpre, List.filterMap_append]
  simp [hgiven]

/-- A version that is not an estimate is what the last `SetWriteset` has written. -/
theorem currentEntry_eq_written (h : currentEntry ops i key = some e) (hest : e.isEstimate = false)
    :
    ∃ inc ws v, lastOp ops i = some (.setWriteset i inc ws) ∧ ws.lookup key = some v ∧
      e = writtenItem i inc v i := by
  unfold currentEntry at h
  split at h
  · next hk =>
    obtain ⟨op, hop, rfl⟩ := Option.map_eq_some_iff.mp h
    have hi := index_of_lastOp hop
    rw [StoreOp.isEstimate_leaves] at hest
    cases op with
    | setWriteset index inc ws =>
      obtain rfl : index = i := hi
      rw [currentWriteset_of_lastOp hop rfl] at hk
      obtain ⟨v, hv⟩ := mem_iff_exists_lookup.mp hk
      exact ⟨inc, ws, v, hop, hv, by rw [StoreOp.leaves, hv]; rfl⟩
    | invalidateWriteset index inc => cases hest
    | setEstimatedWriteset index inc ws => cases hest
  · cases h

/-- The value of such a version is the one of the current write set. -/
theorem value_currentEntry (hest : ∀ e, currentEntry ops i key = some e → e.isEstimate = false) :
    (currentEntry ops i key).map ValueItem.value = (currentWriteset ops i).lookup key := by
  cases he : currentEntry ops i key with
  | none =>
    have hk : key ∉ currentWriteset ops i := by
      rw [mem_currentWriteset_iff, he]
      simp
    exact (AList.lookup_eq_none.mpr hk).symm
  | some e =>
    obtain ⟨inc, ws, v, hop, hv, rfl⟩ := currentEntry_eq_written he (hest e he)
    rw [currentWriteset_of_lastOp hop rfl, hv]
    cases v <;> rfl

end MelodiaStore
