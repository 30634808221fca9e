import MelodiaStore.Bookkeeping
import MelodiaStore.ListStore

/-!
# Bookkeeping of the List Store

How far the list store follows its history. Three things can go wrong in an operation:

* a key that was registered once has a slice of length one, so that the operation is
  clamped to its last place and later lookups do not reach it;
* `SetWriteset` for incarnation zero leaves the versions of the old write set behind, and
  for an empty write set it leaves the old recorded keys behind;
* `InvalidateWriteset` puts an estimate under every recorded key, also under a key that has
  no version of the transaction any more.

`StoreOp.Tidy` says that an operation does none of this, and `ListTracks` that the store
holds the versions of the history. The latter has a parameter, the bound below which
transactions are observed: no lookup of a block sees what the last transaction does.

## Main results

* `ListStore.lookups_iff_tidy`: both lookups find the latest version of the history in
  every state of a run exactly when all its operations are tidy.
* `ListStore.agrees_with_store`: tidy operations leave the two stores with the same lookups.
* `ListStore.bookkeeping_iff_replacesOld`: with slices for all transactions, the recorded
  keys and the versions are those of the history in every state of a run exactly when every
  `SetWriteset` replaces the old write set.
-/

namespace MelodiaStore

open Option (bind_eq_some_iff bind_some filter_some)
open ListStore (invalidateWriteset_ok setEstimatedWriteset_ok setWriteset_ok slot)

variable {π : Type} {totalTask : ℕ} {k : Bytes} {item : MultiVersionValue}

/-! ### Registration -/

/-- A new list store with some keys registered, in the order of the list. -/
def registered (parent : π) (totalTask : ℕ) (keys : List Bytes) : ListStore π :=
  keys.foldl (fun s key => s.newKey key totalTask) (newMultiVersionListStore parent totalTask)

/-- A key is registered, and grown when it is met again. -/
theorem ShardedMap.get_update (sm : ShardedMap) (key : Bytes) (totalTask : ℕ) (k : Bytes) :
    (sm.update key totalTask).get k =
      if k = key then
        match sm.get key with
        | none => some (newMultiVersionListItem 1)
        | some value =>
          if value.valueList.length = 1 then some (newMultiVersionListItem totalTask)
          else some value
      else sm.get k := by
  unfold update
  cases hkey : sm.get key with
  | none => exact sm.get_set key _ k
  | some value =>
    dsimp only
    split
    · exact sm.get_set key _ k
    · split
      · next hk => rw [hk, hkey]
      · rfl

section

variable (parent : π) (totalTask : ℕ) (keys : List Bytes)

/-- The slice of a key has length one after the first registration, and a place for every
transaction from the second one on. -/
theorem get_registered (k : Bytes) :
    (registered parent totalTask keys).shardMap.get k =
      match keys.count k with
      | 0 => none
      | 1 => some (newMultiVersionListItem 1)
      | _ + 2 => some (newMultiVersionListItem totalTask) := by
  induction keys using List.reverseRecOn with
  | nil => exact ShardedMap.get_newShardedMap 128 (by decide) k
  | append_singleton keys key ih =>
    rw [registered, List.foldl_append, List.foldl_cons, List.foldl_nil, ← registered,
      ListStore.newKey, ShardedMap.get_update]
    by_cases hk : k = key
    · subst hk
      rw [if_pos rfl, ih, List.count_append, List.count_singleton_self]
      rcases hc : keys.count k with _ | _ | n
      · rfl
      · rfl
      · dsimp only
        split <;> rfl
    · rw [if_neg hk, ih, List.count_append, List.count_singleton,
        if_neg (by simpa using Ne.symm hk)]
      rfl

/-- Registration records nothing. -/
theorem keysList_registered :
    (registered parent totalTask keys).keysList = List.replicate totalTask ⟨[], ∅, []⟩ := by
  induction keys using List.reverseRecOn with
  | nil => rfl
  | append_singleton keys key ih =>
    rw [registered, List.foldl_append, List.foldl_cons, List.foldl_nil, ← registered,
      ListStore.newKey, ih]

theorem writesetKeys_registered (i : ℕ) :
    (registered parent totalTask keys).writesetKeys i = [] := by
  rw [ListStore.writesetKeys, keysList_registered, List.getElem?_replicate]
  split <;> rfl

end

/-- What is there for a registered key. -/
theorem item_registered {parent : π} {keys : List Bytes}
    (h : (registered parent totalTask keys).item k = some item) :
    k ∈ keys ∧ ∃ size, item = .list (newMultiVersionListItem size) ∧
      (2 ≤ keys.count k → size = totalTask) := by
  rw [ListStore.item, get_registered] at h
  rcases hc : keys.count k with _ | _ | n
  · rw [hc] at h
    cases h
  · rw [hc] at h
    obtain rfl := Option.some.inj h
    exact ⟨List.count_pos_iff.mp (by omega), 1, rfl, fun h => absurd h (by omega)⟩
  · rw [hc] at h
    obtain rfl := Option.some.inj h
    exact ⟨List.count_pos_iff.mp (by omega), totalTask, rfl, fun _ => rfl⟩

/-! ### Refinement of the history -/

/-- The part of a version that a lookup below `bound` can see. -/
def observed (bound : ℕ) (e : Option ValueItem) : Option ValueItem :=
  e.filter fun v => decide (v.index < bound)

/-- What is seen below a bound. -/
theorem observed_eq_some {bound : ℕ} {o : Option ValueItem} {e : ValueItem} :
    observed bound o = some e ↔ o = some e ∧ e.index < bound := by
  rw [observed, Option.filter_eq_some_iff, decide_eq_true_iff]

/-- The store holds the versions that the history `ops` has below `bound`: recorded keys may
be stale, but none is missing, and every key with such a version has a place for all
transactions. -/
structure ListTracks (totalTask bound : ℕ) (regs : List Bytes) (ops : List StoreOp)
    (s : ListStore π) : Prop where
  mem_regs : ∀ k item, s.item k = some item → k ∈ regs
  sorted : ∀ i, (s.writesetKeys i).Pairwise (· < ·)
  recorded : ∀ i < bound, ∀ k ∈ currentWriteset ops i, k ∈ s.writesetKeys i
  slot_eq : ∀ k, ∀ i < bound, observed bound (s.slot k i) = currentEntry ops i k
  fits : ∀ k item, s.item k = some item →
    (∃ i < bound, ∃ e, observed bound (item.slot i) = some e) → ∀ i < totalTask, item.fits i

namespace ListTracks

variable {totalTask bound i : ℕ} {regs : List Bytes} {ops : List StoreOp} {s : ListStore π}
  {k : Bytes}

/-- No key is recorded twice. -/
theorem nodup (h : ListTracks totalTask bound regs ops s) (i : ℕ) : (s.writesetKeys i).Nodup :=
  (h.sorted i).imp ne_of_lt

theorem of_registered (parent : π) (totalTask bound : ℕ) (regs : List Bytes) :
    ListTracks totalTask bound regs [] (registered parent totalTask regs) := by
  have hslot : ∀ k item i, (registered parent totalTask regs).item k = some item →
      item.slot i = none := by
    intro k item i h
    obtain ⟨-, size, rfl, -⟩ := item_registered h
    simp only [MultiVersionValue.slot, MultiVersionListItem.slot, newMultiVersionListItem,
      List.getElem?_replicate]
    split <;> rfl
  refine ⟨fun k item h => (item_registered h).1, fun i => ?_, fun i _ k hk => ?_,
    fun k i _ => ?_, ?_⟩
  · rw [writesetKeys_registered]
    exact List.Pairwise.nil
  · exact absurd hk (AList.notMem_empty k)
  · unfold slot
    cases hitem : (registered parent totalTask regs).item k with
    | none => rfl
    | some item =>
      rw [bind_some, hslot k item i hitem]
      rfl
  · rintro k item h ⟨i, -, e, he⟩
    rw [hslot k item i h] at he
    cases he

/-- The keys with a version in a transaction's own place are those of its current write
set. -/
theorem exists_slot_iff (h : ListTracks totalTask bound regs ops s) (hi : i < bound) :
    (∃ e, s.slot k i = some e ∧ e.index = i) ↔ k ∈ currentWriteset ops i := by
  rw [mem_currentWriteset_iff]
  constructor
  · rintro ⟨e, he, hidx⟩
    exact ⟨e, by rw [← h.slot_eq k i hi, observed_eq_some]; exact ⟨he, by omega⟩⟩
  · rintro ⟨e, he⟩
    have hidx := index_currentEntry he
    rw [← h.slot_eq k i hi, observed_eq_some] at he
    exact ⟨e, he.1, hidx⟩

/-- A slice without a place for every transaction has nothing to observe. -/
theorem observed_eq_none (h : ListTracks totalTask bound regs ops s) {item : MultiVersionValue}
    (hitem : s.item k = some item) {c : ℕ} (hc : c < totalTask) (hshort : ¬ item.fits c)
    (hi : i < bound) : observed bound (item.slot i) = none := by
  refine Option.eq_none_iff_forall_ne_some.mpr fun e he => ?_
  exact hshort (h.fits k item hitem ⟨i, hi, e, he⟩ c hc)

end ListTracks

section ListWrite

variable {totalTask bound index : ℕ} {regs gone keys recorded : List Bytes}
  {v : Bytes → ℕ → ValueItem} {ops : List StoreOp} {s s' : ListStore π}

section

variable (h : ListWrite index gone keys v recorded s s')
include h

/-- What an operation does to a key: the number of places stays, and only the place it acts
on may be emptied, or hold the version it writes. -/
theorem ListWrite.item_cases (k : Bytes) :
    (s.item k = none ∧ s'.item k = none) ∨
    ∃ item item', s.item k = some item ∧ s'.item k = some item' ∧
      (∀ i, item'.fits i ↔ item.fits i) ∧
      ∀ i, item'.slot i = item.slot i ∨ i = item.clamp index ∧
        (item'.slot i = none ∨ k ∈ keys ∧ item'.slot i = some (v k i)) := by
  by_cases hk : k ∈ keys
  · obtain ⟨item, item', hitem, hput, hitem'⟩ := h.written k hk
    refine .inr ⟨item, item', hitem, hitem', hput.fits_iff, fun i => ?_⟩
    rw [hput.slot_eq]
    split
    · next hi => exact .inr ⟨hi, .inr ⟨hk, by rw [hi]⟩⟩
    · exact .inl rfl
  · by_cases hg : k ∈ gone
    · rcases h.removed k hg hk with hnone | ⟨item, item', hitem, hput, hitem'⟩
      · exact .inl hnone
      · refine .inr ⟨item, item', hitem, hitem', hput.fits_iff, fun i => ?_⟩
        rw [hput.slot_eq]
        split
        · next hi => exact .inr ⟨hi, .inl rfl⟩
        · exact .inl rfl
    · have hkept := h.kept k hk hg
      cases hitem : s.item k with
      | none => exact .inl ⟨rfl, hkept.trans hitem⟩
      | some item =>
        exact .inr ⟨item, item, rfl, hkept.trans hitem, fun _ => Iff.rfl, fun _ => .inl rfl⟩

/-- A container after an operation was there before, with as many places. -/
theorem ListWrite.exists_item {k : Bytes} {item' : MultiVersionValue}
    (hitem' : s'.item k = some item') :
    ∃ item, s.item k = some item ∧ ∀ i, item'.fits i ↔ item.fits i := by
  rcases h.item_cases k with ⟨-, hnone⟩ | ⟨item, new, hitem, hnew, hfits, -⟩
  · rw [hnone] at hitem'
    cases hitem'
  · obtain rfl : new = item' := Option.some.inj (hnew.symm.trans hitem')
    exact ⟨item, hitem, hfits⟩

/-- What can be observed after an operation below the bound, when the keys it writes have a
place for every transaction. -/
theorem ListWrite.observed_slot (hs : ListTracks totalTask bound regs ops s)
    (hbound : bound ≤ totalTask) (hi : index < bound)
    (hlong : ∀ k ∈ keys, ∀ item, s.item k = some item → ∀ i < totalTask, item.fits i)
    (hv : ∀ k ∈ keys, (v k index).index = index) (k : Bytes) {j : ℕ} (hj : j < bound) :
    observed bound (s'.slot k j) =
      if j = index then
        if k ∈ keys then some (v k index)
        else if k ∈ gone then none else observed bound (s.slot k j)
      else observed bound (s.slot k j) := by
  by_cases hk : k ∈ keys
  · obtain ⟨item, item', hitem, hput, hitem'⟩ := h.written k hk
    rw [MultiVersionValue.clamp_of_fits (hlong k hk item hitem index (by omega))] at hput
    rw [if_pos hk, slot, slot, hitem, hitem', bind_some,
      bind_some, hput.slot_eq]
    split
    · rw [observed_eq_some]
      exact ⟨rfl, by rw [hv k hk]; exact hi⟩
    · rfl
  · rw [if_neg hk]
    by_cases hgone : k ∈ gone
    · rw [if_pos hgone]
      rcases h.removed k hgone hk with ⟨hnone, hnone'⟩ | ⟨item, item', hitem, hput, hitem'⟩
      · simp only [slot, hnone, hnone', Option.bind_none]
        split <;> rfl
      · rw [slot, slot, hitem, hitem', bind_some, bind_some,
          hput.slot_eq]
        by_cases hfit : item.fits index
        · rw [MultiVersionValue.clamp_of_fits hfit]
          split <;> rfl
        · have hnone := hs.observed_eq_none hitem (by omega) hfit hj
          rw [hnone, ite_self]
          split
          · rfl
          · exact hnone
    · rw [if_neg hgone, slot, h.kept k hk hgone, ← slot, ite_self]

end

section

variable (hs : ListTracks totalTask bound regs ops s) {op : StoreOp}
include hs

/-- A write binds no key that was not registered. -/
theorem ListTracks.mem_regs_of_listWrite (h : ListWrite index gone keys v recorded s s') :
    ∀ k item', s'.item k = some item' → k ∈ regs := by
  intro k item' hitem'
  obtain ⟨item, hitem, -⟩ := h.exists_item hitem'
  exact hs.mem_regs k item hitem

theorem ListTracks.sorted_of_listWrite (h : ListWrite index gone keys v recorded s s')
    (hsorted : recorded.Pairwise (· < ·)) (i : ℕ) : (s'.writesetKeys i).Pairwise (· < ·) := by
  rw [h.writesetKeys_eq]
  split
  · exact hsorted
  · exact hs.sorted i

/-- A write below the bound that does what `op` asks for carries the refinement on. -/
theorem ListTracks.of_listWrite (h : ListWrite op.index gone keys v recorded s s')
    (hbound : bound ≤ totalTask) (hi : op.index < bound)
    (hlong : ∀ k ∈ keys, ∀ item, s.item k = some item → ∀ i < totalTask, item.fits i)
    (hkeys : ∀ k, k ∈ keys ↔ k ∈ op.given.getD (currentWriteset ops op.index))
    (hv : ∀ k ∈ keys, v k op.index = op.leaves k)
    (hgone : ∀ k ∈ currentWriteset ops op.index, k ∉ keys → k ∈ gone)
    (hsorted : recorded.Pairwise (· < ·)) (hrecorded : ∀ k ∈ keys, k ∈ recorded) :
    ListTracks totalTask bound regs (ops ++ [op]) s' := by
  have hindex : ∀ k ∈ keys, (v k op.index).index = op.index := fun k hk => by
    rw [hv k hk, StoreOp.index_leaves]
  have hobs := h.observed_slot hs hbound hi hlong hindex
  refine ⟨hs.mem_regs_of_listWrite h, hs.sorted_of_listWrite h hsorted, fun i hib k hk => ?_,
    fun k i hib => ?_, fun k item' hitem' hex => ?_⟩
  · rw [currentWriteset_append] at hk
    rw [h.writesetKeys_eq]
    by_cases hj : op.index = i
    · rw [if_pos hj, ← hj, ← hkeys] at hk
      rw [if_pos hj.symm]
      exact hrecorded k hk
    · rw [if_neg hj] at hk
      rw [if_neg (Ne.symm hj)]
      exact hs.recorded i hib k hk
  · rw [hobs k hib, currentEntry_append, hs.slot_eq k i hib]
    simp only [eq_comm (a := i)]
    split
    · next hj =>
      subst hj
      by_cases hk : k ∈ keys
      · rw [if_pos hk, if_pos ((hkeys k).mp hk), hv k hk]
      · rw [if_neg hk, if_neg fun hmem => hk ((hkeys k).mpr hmem)]
        split
        · rfl
        · next hg => rw [currentEntry, if_neg fun hmem => hg (hgone k hmem hk)]
    · rfl
  · obtain ⟨item, hitem, hfits⟩ := h.exists_item hitem'
    intro i hit
    rw [hfits]
    by_cases hk : k ∈ keys
    · exact hlong k hk item hitem i hit
    · -- an old key: what is observed now was observed before
      obtain ⟨j, hj, e, he⟩ := hex
      have hslot' : s'.slot k j = item'.slot j := by rw [slot, hitem']; rfl
      have hslot : s.slot k j = item.slot j := by rw [slot, hitem]; rfl
      have hobs' := hobs k hj
      rw [hslot', hslot, he, if_neg hk] at hobs'
      refine hs.fits k item hitem ⟨j, hj, e, ?_⟩ i hit
      split at hobs'
      · split at hobs'
        · cases hobs'
        · exact hobs'.symm
      · exact hobs'.symm

/-- An operation of the transaction at the bound goes unobserved, unless it deletes a key in
a slice that is too short. -/
theorem ListTracks.of_listWrite_last (h : ListWrite op.index gone keys v recorded s s')
    (hi : op.index = bound) (htotal : bound < totalTask) (hsorted : recorded.Pairwise (· < ·))
    (hv : ∀ k ∈ keys, ∀ item, s.item k = some item → ¬ item.fits bound →
      ∀ c < bound, ¬ (v k c).index < bound) : ListTracks totalTask bound regs (ops ++ [op]) s' := by
  -- no place below the bound shows anything new
  have hobs : ∀ k, ((s.item k = none ∧ s'.item k = none) ∨
      ∃ item item', s.item k = some item ∧ s'.item k = some item' ∧
        (∀ i, item'.fits i ↔ item.fits i) ∧
        ∀ j < bound, observed bound (item'.slot j) = observed bound (item.slot j)) := by
    intro k
    refine (h.item_cases k).imp id ?_
    rintro ⟨item, item', hitem, hitem', hfits, hslot⟩
    refine ⟨item, item', hitem, hitem', hfits, fun j hj => ?_⟩
    rcases hslot j with hsame | ⟨hc, hnew⟩
    · rw [hsame]
    · have hshort : ¬ item.fits bound := by
        intro hfit
        rw [hi, MultiVersionValue.clamp_of_fits hfit] at hc
        omega
      rw [hs.observed_eq_none hitem htotal hshort hj]
      rcases hnew with hnone | ⟨hk, hnew⟩
      · rw [hnone]
        rfl
      · rw [hnew, observed, filter_some, if_neg]
        rw [decide_eq_true_iff]
        exact hv k hk item hitem hshort j hj
  have hne : ∀ {i}, i < bound → op.index ≠ i := fun hib => by omega
  refine ⟨hs.mem_regs_of_listWrite h, hs.sorted_of_listWrite h hsorted, fun i hib k hk => ?_,
    fun k i hib => ?_, fun k item' hitem' hex i hit => ?_⟩
  · rw [currentWriteset_append, if_neg (hne hib)] at hk
    rw [h.writesetKeys_eq, if_neg (Ne.symm (hne hib))]
    exact hs.recorded i hib k hk
  · rw [currentEntry_append, if_neg (hne hib), ← hs.slot_eq k i hib, slot,
      slot]
    rcases hobs k with ⟨hnone, hnone'⟩ | ⟨item, item', hitem, hitem', -, hsame⟩
    · rw [hnone, hnone']
    · rw [hitem, hitem']
      exact hsame i hib
  · rcases hobs k with ⟨-, hnone⟩ | ⟨item, new, hitem, hnew, hfits, hsame⟩
    · rw [hnone] at hitem'
      cases hitem'
    · obtain rfl : new = item' := Option.some.inj (hnew.symm.trans hitem')
      obtain ⟨j, hj, e, he⟩ := hex
      rw [hfits]
      exact hs.fits k item hitem ⟨j, hj, e, by rw [← hsame j hj, he]⟩ i hit

end

end ListWrite

/-! ### Tidy operations -/

/-- Perform an operation on a list store. -/
def StoreOp.performList : StoreOp → EStateM Panic (ListStore π) PUnit
  | setWriteset index inc ws => ListStore.setWriteset index inc ws
  | invalidateWriteset index inc => ListStore.invalidateWriteset index inc
  | setEstimatedWriteset index inc ws => ListStore.setEstimatedWriteset index inc ws

/-- The slice of a key has a place for every transaction. -/
def HasPlaces (totalTask : ℕ) (s : ListStore π) (k : Bytes) : Prop :=
  ∀ m, s.shardMap.get k = some m → totalTask ≤ m.valueList.length

/-- Every index of the block fits. -/
theorem HasPlaces.fits {s : ListStore π} (h : HasPlaces totalTask s k)
    (hitem : s.item k = some item) {i : ℕ} (hi : i < totalTask) : item.fits i := by
  obtain ⟨m, hm, rfl⟩ := Option.map_eq_some_iff.mp hitem
  exact lt_of_lt_of_le hi (h m hm)

/-- A key has a version of a transaction in its place. -/
def ListStore.HasVersion (s : ListStore π) (i : ℕ) (k : Bytes) : Prop :=
  ∃ e, s.slot k i = some e ∧ e.index = i

/-- An operation that finds places for what it writes, replaces every version its
transaction has left, and invalidates only versions that exist. -/
def StoreOp.Clean (totalTask : ℕ) (s : ListStore π) : StoreOp → Prop
  | setWriteset index inc ws => (∀ k ∈ ws, HasPlaces totalTask s k) ∧
      (0 < inc ∨ ∀ k, s.HasVersion index k → k ∈ ws)
  | invalidateWriteset index _ => ∀ k ∈ s.writesetKeys index, s.HasVersion index k
  | setEstimatedWriteset _ _ ws => ∀ k ∈ ws, HasPlaces totalTask s k

/-- The operation deletes the key. -/
def StoreOp.Deletes (k : Bytes) : StoreOp → Prop
  | setWriteset _ _ ws => ws.lookup k = some none
  | invalidateWriteset _ _ => False
  | setEstimatedWriteset _ _ _ => False

/-- The operation is clean. For the last transaction, which no lookup of the block observes,
it is enough that the keys it deletes have their places. -/
def StoreOp.Tidy (totalTask : ℕ) (s : ListStore π) (op : StoreOp) : Prop :=
  (op.index + 1 < totalTask → op.Clean totalTask s) ∧
    (op.index + 1 = totalTask → ∀ k, op.Deletes k → HasPlaces totalTask s k)

namespace ListTracks

variable {totalTask bound : ℕ} {regs : List Bytes} {ops : List StoreOp} {op : StoreOp}
  {s s' : ListStore π}

/-- **A clean operation below the bound carries the refinement of the history on.** -/
theorem step_clean (hs : ListTracks totalTask bound regs ops s) (hbound : bound ≤ totalTask)
    (hi : op.index < bound) (hclean : op.Clean totalTask s)
    (h : op.performList.run s = .ok ⟨⟩ s') :
    ListTracks totalTask bound regs (ops ++ [op]) s' := by
  cases op with
  | setWriteset index inc ws =>
    obtain ⟨hplaces, hold⟩ := hclean
    refine hs.of_listWrite (setWriteset_ok h) hbound hi
      (fun k hk item hitem i => (hplaces k (mem_sortStrings.mp hk)).fits hitem)
      (fun k => mem_sortStrings) (fun _ _ => rfl) (fun k hk hnot => ?_) ?_ (fun k hk => ?_)
    · rw [mem_sortStrings] at hnot
      rcases hold with hinc | hold
      · rw [if_pos hinc]
        exact hs.recorded index hi k hk
      · exact absurd (hold k ((hs.exists_slot_iff hi).mpr hk)) hnot
    · split
      · exact hs.sorted index
      · exact sortStrings_pairwise ws.keys_nodup
    · have hne : ws.keys ≠ [] := by
        intro hnil
        rw [mem_sortStrings, hnil] at hk
        exact absurd hk List.not_mem_nil
      rwa [if_neg hne]
  | invalidateWriteset index inc =>
    have hmem : ∀ k, k ∈ s.writesetKeys index ↔ k ∈ currentWriteset ops index := fun k =>
      ⟨fun hk => (hs.exists_slot_iff hi).mp (hclean k hk), hs.recorded index hi k⟩
    refine hs.of_listWrite (invalidateWriteset_ok (hs.nodup index) h) hbound hi
      (fun k hk item hitem => ?_) hmem (fun _ _ => rfl)
      (fun k hk hnot => absurd ((hmem k).mpr hk) hnot) (hs.sorted index) fun _ hk => hk
    obtain ⟨e, he⟩ := mem_currentWriteset_iff.mp ((hmem k).mp hk)
    rw [← hs.slot_eq k index hi, slot, hitem] at he
    exact hs.fits k item hitem ⟨index, hi, e, he⟩
  | setEstimatedWriteset index inc ws =>
    exact hs.of_listWrite (setEstimatedWriteset_ok h) hbound hi
      (fun k hk item hitem i => (hclean k (mem_sortStrings.mp hk)).fits hitem)
      (fun k => mem_sortStrings) (fun _ _ => rfl) (fun k hk _ => hs.recorded index hi k hk)
      (sortStrings_pairwise ws.keys_nodup) fun _ hk => hk

/-- An operation of the last transaction carries it on as well. -/
theorem step_last (hs : ListTracks totalTask bound regs ops s) (hi : op.index = bound)
    (htotal : bound < totalTask) (hdel : ∀ k, op.Deletes k → HasPlaces totalTask s k)
    (h : op.performList.run s = .ok ⟨⟩ s') :
    ListTracks totalTask bound regs (ops ++ [op]) s' := by
  cases op with
  | setWriteset index inc ws =>
    refine hs.of_listWrite_last (setWriteset_ok h) hi htotal ?_ ?_
    · split
      · exact hs.sorted index
      · exact sortStrings_pairwise ws.keys_nodup
    · intro k hk item hitem hshort c _
      rw [mem_sortStrings] at hk
      obtain ⟨value, hvalue⟩ := mem_iff_exists_lookup.mp (AList.mem_keys.mpr hk)
      rw [hvalue, Option.getD_some]
      cases value with
      | none => exact absurd ((hdel k hvalue).fits hitem htotal) hshort
      | some b =>
        obtain rfl : index = bound := hi
        exact lt_irrefl index
  | invalidateWriteset index inc =>
    obtain rfl : index = bound := hi
    exact hs.of_listWrite_last (invalidateWriteset_ok (hs.nodup index) h) rfl htotal
      (hs.sorted index) fun _ _ _ _ _ _ _ => lt_irrefl index
  | setEstimatedWriteset index inc ws =>
    obtain rfl : index = bound := hi
    exact hs.of_listWrite_last (setEstimatedWriteset_ok h) rfl htotal
      (sortStrings_pairwise ws.keys_nodup) fun _ _ _ _ _ _ _ => lt_irrefl index

end ListTracks

/-! ### Lookups -/

namespace ListStore

/-- The lookup that lets the slice grow finds the latest version it can observe. -/
theorem getLatestBeforeIndexExpansion_fst (s : ListStore π) (j : ℕ) (k : Bytes) :
    (s.getLatestBeforeIndexExpansion j k).1 =
      latestBelow (fun i => observed j (s.slot k i)) j := by
  unfold getLatestBeforeIndexExpansion slot item
  cases s.shardMap.get k with
  | none => exact (latestBelow_eq_none_iff.mpr fun _ _ => rfl).symm
  | some m =>
    have hscan := (m.expand j).scanDown_eq (fun v => decide (v.index < j)) j
    simp only [MultiVersionListItem.slot_expand] at hscan
    exact hscan

variable {s : ListStore π} {j : ℕ} {k : Bytes}

/-- The other lookup finds the same where the slice has the place it starts from. -/
theorem getLatestBeforeIndex_eq {item : MultiVersionValue} (hitem : s.item k = some item)
    (hfit : item.fits j) :
    s.getLatestBeforeIndex j k = latestBelow (fun i => observed j (s.slot k i)) j := by
  obtain ⟨m, hm, rfl⟩ := Option.map_eq_some_iff.mp hitem
  have hlt : j < m.valueList.length := hfit
  unfold getLatestBeforeIndex slot
  rw [hm, hitem, bind_some, MultiVersionListItem.getLatestBeforeIndex,
    if_neg (Nat.not_le.mpr hlt)]
  exact m.scanDown_eq _ j

/-- Past the end of a slice it finds nothing. -/
theorem getLatestBeforeIndex_eq_none (h : ∀ item, s.item k = some item → ¬ item.fits j) :
    s.getLatestBeforeIndex j k = none := by
  unfold getLatestBeforeIndex
  cases hm : s.shardMap.get k with
  | none => rfl
  | some m =>
    have hshort : ¬ j < m.valueList.length := h (.list m) (by rw [item, hm]; rfl)
    rw [bind_some, MultiVersionListItem.getLatestBeforeIndex,
      if_pos (Nat.not_lt.mp hshort)]

end ListStore

/-- Both lookups find the latest version that the history has of a registered key. -/
def ListStore.Lookups (totalTask : ℕ) (regs : List Bytes) (ops : List StoreOp)
    (s : ListStore π) : Prop :=
  ∀ k ∈ regs, ∀ j < totalTask,
    s.getLatestBeforeIndex j k = latestBelow (fun i => currentEntry ops i k) j ∧
      (s.getLatestBeforeIndexExpansion j k).1 = latestBelow (fun i => currentEntry ops i k) j

namespace ListTracks

variable {totalTask : ℕ} {regs : List Bytes} {ops : List StoreOp} {op : StoreOp}
  {s s' : ListStore π}

/-- A store that holds its history below the last transaction answers every lookup. -/
theorem lookups (hs : ListTracks totalTask (totalTask - 1) regs ops s) :
    s.Lookups totalTask regs ops := by
  intro k _ j hj
  have hobs : latestBelow (fun i => observed j (s.slot k i)) j =
      latestBelow (fun i => currentEntry ops i k) j := by
    refine latestBelow_congr fun i hi => ?_
    have hslot := hs.slot_eq k i (by omega)
    cases he : s.slot k i with
    | none => rw [← hslot, he]; rfl
    | some e =>
      by_cases hidx : e.index < totalTask - 1
      · have hentry : currentEntry ops i k = some e := by
          rw [← hslot, he, observed_eq_some]
          exact ⟨rfl, hidx⟩
        rw [hentry, observed_eq_some, index_currentEntry hentry]
        exact ⟨rfl, hi⟩
      · rw [← hslot, he, observed, observed, filter_some, filter_some,
          if_neg (by rw [decide_eq_true_iff]; omega), if_neg (by rwa [decide_eq_true_iff])]
  refine ⟨?_, (s.getLatestBeforeIndexExpansion_fst j k).trans hobs⟩
  by_cases hfit : ∃ item, s.item k = some item ∧ item.fits j
  · obtain ⟨item, hitem, hfit⟩ := hfit
    exact (ListStore.getLatestBeforeIndex_eq hitem hfit).trans hobs
  · rw [ListStore.getLatestBeforeIndex_eq_none fun item hitem hfits => hfit ⟨item, hitem, hfits⟩]
    refine (latestBelow_eq_none_iff.mpr fun i hi => ?_).symm
    rw [← hs.slot_eq k i (by omega), slot]
    cases hitem : s.item k with
    | none => rfl
    | some item =>
      exact hs.observed_eq_none hitem hj (fun hfits => hfit ⟨item, hitem, hfits⟩) (by omega)

/-- A slice that grows keeps its versions in their places. -/
theorem expansion {bound : ℕ} (h : ListTracks totalTask bound regs ops s) (index : ℕ)
    (key : Bytes) :
    ListTracks totalTask bound regs ops (s.getLatestBeforeIndexExpansion index key).2 := by
  unfold ListStore.getLatestBeforeIndexExpansion
  cases hm : s.shardMap.get key with
  | none => exact h
  | some m =>
    change ListTracks totalTask bound regs ops
      { s with shardMap := s.shardMap.set key (m.expand index) }
    -- the store after the call differs in the slice of `key`, which is `m` grown
    have hitem : ∀ k, ListStore.item
        { s with shardMap := s.shardMap.set key (m.expand index) } k =
        if k = key then some (.list (m.expand index)) else s.item k := by
      intro k
      simp only [ListStore.item, ShardedMap.get_set]
      split <;> rfl
    have hkey : s.item key = some (.list m) := by rw [ListStore.item, hm]; rfl
    have hslot : ∀ i, (MultiVersionValue.list (m.expand index)).slot i =
        (MultiVersionValue.list m).slot i := fun i => m.slot_expand index i
    refine ⟨fun k item hk => ?_, h.sorted, h.recorded, fun k i hi => ?_,
      fun k item hk hex i hi => ?_⟩
    · rw [hitem] at hk
      split at hk
      · next heq => exact heq ▸ h.mem_regs key _ hkey
      · exact h.mem_regs k item hk
    · rw [← h.slot_eq k i hi, slot, hitem, slot]
      split
      · next heq =>
        rw [heq, hkey, bind_some, bind_some]
        exact congrArg _ (hslot i)
      · rfl
    · rw [hitem] at hk
      split at hk
      · obtain rfl := Option.some.inj hk
        simp only [hslot] at hex
        have hfit : i < m.valueList.length := h.fits key _ hkey hex i hi
        exact lt_of_lt_of_le hfit (m.length_le_expand index)
      · exact h.fits k item hk hex i hi

/-- A version that a lookup from just above its place can observe is one of the history. -/
theorem currentEntry_of_slot (hlook : s.Lookups totalTask regs ops) {k : Bytes} (hk : k ∈ regs)
    {c j : ℕ} {e : ValueItem} (hj : j + 1 < totalTask) (hc : c ≤ j) (hslot : s.slot k c = some e)
    (hidx : e.index ≤ j) (hnone : ∀ i, c < i → i ≤ j → s.slot k i = none) :
    currentEntry ops e.index k = some e := by
  have hfound := (hlook k hk (j + 1) hj).2
  rw [ListStore.getLatestBeforeIndexExpansion_fst] at hfound
  have hobs : latestBelow (fun i => observed (j + 1) (s.slot k i)) (j + 1) = some e := by
    refine latestBelow_eq_some_iff.mpr ⟨c, by omega, ?_, fun i hci hij => ?_⟩
    · rw [hslot, observed_eq_some]
      exact ⟨rfl, by omega⟩
    · rw [hnone i hci (by omega)]
      rfl
  rw [hobs, eq_comm] at hfound
  obtain ⟨i, -, hentry, -⟩ := latestBelow_eq_some_iff.mp hfound
  rwa [index_currentEntry hentry]

section

variable (hs : ListTracks totalTask (totalTask - 1) regs ops s) {k : Bytes}
include hs

/-- Right lookups after a write show that the written keys had their places. -/
theorem hasPlaces_of_lookups {gone keys recorded : List Bytes} {v : Bytes → ℕ → ValueItem}
    (hi : op.index + 1 < totalTask) (hw : ListWrite op.index gone keys v recorded s s')
    (hlook : s'.Lookups totalTask regs (ops ++ [op]))
    (hk : k ∈ currentWriteset (ops ++ [op]) op.index) : HasPlaces totalTask s k := by
  intro m hm
  by_contra hlt
  have hitem : s.item k = some (.list m) := by rw [ListStore.item, hm]; rfl
  have hnone : s'.getLatestBeforeIndex (totalTask - 1) k = none := by
    refine ListStore.getLatestBeforeIndex_eq_none fun item' hitem' hfit => ?_
    obtain ⟨item, hitem₁, hfits⟩ := hw.exists_item hitem'
    obtain rfl : item = .list m := Option.some.inj (hitem₁.symm.trans hitem)
    have hlast : totalTask - 1 < m.valueList.length := (hfits _).mp hfit
    omega
  have hfound := (hlook k (hs.mem_regs k _ hitem) (totalTask - 1) (by omega)).1
  rw [hnone, eq_comm, latestBelow_eq_none_iff] at hfound
  obtain ⟨e, he⟩ := mem_currentWriteset_iff.mp hk
  rw [hfound op.index (by omega)] at he
  cases he

/-- Right lookups after an operation below the last transaction show that it was clean. -/
theorem clean_of_lookups (hi : op.index + 1 < totalTask) (h : op.performList.run s = .ok ⟨⟩ s')
    (hlook : s'.Lookups totalTask regs (ops ++ [op])) : op.Clean totalTask s := by
  have hbound : op.index < totalTask - 1 := by omega
  have hnow : ∀ k, k ∈ currentWriteset (ops ++ [op]) op.index ↔
      k ∈ op.given.getD (currentWriteset ops op.index) := fun k => by
    rw [currentWriteset_append, if_pos rfl]
  cases op with
  | setWriteset index inc ws =>
    have hw := setWriteset_ok h
    refine ⟨fun k hk => hs.hasPlaces_of_lookups hi hw hlook ((hnow k).mpr hk), ?_⟩
    rw [or_iff_not_imp_left]
    rintro hinc k ⟨e, he, hidx⟩
    by_contra hk
    -- the old version stays in its place, where the next transaction observes it
    have hkept := hw.kept k (by rwa [mem_sortStrings])
      (by rw [if_neg hinc]; exact List.not_mem_nil)
    have hregs : k ∈ regs := by
      unfold slot at he
      obtain ⟨item, hitem, -⟩ := bind_eq_some_iff.mp he
      exact hs.mem_regs k item hitem
    have hentry := currentEntry_of_slot hlook hregs (j := index) hi le_rfl
      (by rw [slot, hkept]; exact he) (by omega) (fun i h₁ h₂ => by omega)
    rw [hidx] at hentry
    exact hk ((hnow k).mp (mem_currentWriteset_iff.mpr ⟨e, hentry⟩))
  | invalidateWriteset index inc =>
    have hw := invalidateWriteset_ok (hs.nodup index) h
    intro k hk
    -- the new estimate is observed by the next transaction, so the history has one
    obtain ⟨item, item', hitem, hput, hitem'⟩ := hw.written k hk
    have hslot : ∀ i, s'.slot k i = item'.slot i := fun i => by rw [slot, hitem']; rfl
    have hentry := currentEntry_of_slot hlook (hs.mem_regs k item hitem) (j := index)
      (e := newEstimateItem index inc) hi (item.clamp_le index)
      (by rw [hslot, hput.slot_eq, if_pos rfl]) le_rfl (fun i h₁ h₂ => ?_)
    · exact (hs.exists_slot_iff hbound).mpr
        ((hnow k).mp (mem_currentWriteset_iff.mpr ⟨_, hentry⟩))
    · rw [hslot, hput.slot_eq, if_neg (by omega)]
      exact MultiVersionValue.slot_eq_none_of_clamp_lt h₁ h₂
  | setEstimatedWriteset index inc ws =>
    have hw := setEstimatedWriteset_ok h
    exact fun k hk => hs.hasPlaces_of_lookups hi hw hlook ((hnow k).mpr hk)

/-- Right lookups after an operation of the last transaction show that the keys it has
deleted had their places. -/
theorem hasPlaces_of_deletes (hi : op.index + 1 = totalTask) (h : op.performList.run s = .ok ⟨⟩ s')
    (hlook : s'.Lookups totalTask regs (ops ++ [op])) (hk : op.Deletes k) :
    HasPlaces totalTask s k := by
  cases op with
  | invalidateWriteset index inc => exact hk.elim
  | setEstimatedWriteset index inc ws => exact hk.elim
  | setWriteset index inc ws =>
    intro m hm
    by_contra hlt
    have hws : ws.lookup k = some none := hk
    have hw := setWriteset_ok h
    obtain ⟨item, item', hitem, hput, hitem'⟩ := hw.written k
      (mem_sortStrings.mpr (AList.mem_keys.mp (mem_iff_exists_lookup.mpr ⟨none, hws⟩)))
    obtain rfl : item = .list m := by
      rw [ListStore.item, hm] at hitem
      exact (Option.some.inj hitem).symm
    rw [hws] at hput
    -- the deletion carries the index of the place it was clamped to
    have hdeleted : item'.slot (m.clamp index) = some (newDeletedItem (m.clamp index) inc) :=
      (hput.slot_eq _).trans (if_pos rfl)
    have hc : m.clamp index < m.valueList.length :=
      (hput.fits_iff _).mp (MultiVersionValue.fits_of_slot hdeleted)
    have hentry := currentEntry_of_slot hlook (hs.mem_regs k _ hitem) (j := m.clamp index)
      (e := newDeletedItem (m.clamp index) inc) (by omega) le_rfl
      (by rw [slot, hitem']; exact hdeleted) le_rfl (fun i h₁ h₂ => by omega)
    have hidx : index + 1 = totalTask := hi
    have hne : (StoreOp.setWriteset index inc ws).index ≠
        (newDeletedItem (m.clamp index) inc).index := fun heq : index = m.clamp index => by omega
    rw [currentEntry_append, if_neg hne] at hentry
    have hobs : observed (totalTask - 1) ((MultiVersionValue.list m).slot (m.clamp index)) =
        some (newDeletedItem (m.clamp index) inc) := by
      have hslot := hs.slot_eq k (m.clamp index) (by omega)
      rw [slot, hitem] at hslot
      exact hslot.trans hentry
    have hfit : totalTask - 1 < m.valueList.length :=
      hs.fits k _ hitem ⟨m.clamp index, by omega, _, hobs⟩ (totalTask - 1) (by omega)
    omega

end

end ListTracks

/-- The operations of a run of the list store: writes, and the two lookups, of which one
changes the store. -/
inductive ListOp
  | write (op : StoreOp)
  | getLatestBeforeIndex (index : ℕ) (key : Bytes)
  | getLatestBeforeIndexExpansion (index : ℕ) (key : Bytes)

namespace ListOp

/-- The transaction an operation is about. -/
def index : ListOp → ℕ
  | write op => op.index
  | getLatestBeforeIndex index _ => index
  | getLatestBeforeIndexExpansion index _ => index

/-- Perform an operation; what a lookup returns is dropped. -/
def perform : ListOp → EStateM Panic (ListStore π) PUnit
  | write op => op.performList
  | getLatestBeforeIndex _ _ => pure ⟨⟩
  | getLatestBeforeIndexExpansion index key =>
    modify fun s => (s.getLatestBeforeIndexExpansion index key).2

/-- Only writes have to be tidy. -/
def Tidy (totalTask : ℕ) (s : ListStore π) : ListOp → Prop
  | write op => op.Tidy totalTask s
  | getLatestBeforeIndex _ _ => True
  | getLatestBeforeIndexExpansion _ _ => True

/-- The write an operation adds to the history. -/
def write? : ListOp → Option StoreOp
  | write op => some op
  | getLatestBeforeIndex _ _ => none
  | getLatestBeforeIndexExpansion _ _ => none

end ListOp

/-- The writes of a run. -/
def writesOf (ops : List ListOp) : List StoreOp := ops.filterMap ListOp.write?

theorem writesOf_append (ops : List ListOp) (op : ListOp) :
    writesOf (ops ++ [op]) = writesOf ops ++ op.write?.toList := by
  rw [writesOf, List.filterMap_append]
  cases op <;> rfl

/-- **Lookups of the list store.** Take any registered keys. In every state of a run both
lookups below an index find the version of the latest transaction before it whose current
write set contains the key, and nothing when there is none, exactly when all writes of the
run are tidy: those below the last transaction find a place for every transaction in the
slices they write, replace all versions of their transaction, and invalidate none that does
not exist, and the last transaction deletes no key from a slice that is too short. -/
theorem ListStore.lookups_iff_tidy (parent : π) (totalTask : ℕ) (regs : List Bytes)
    (ops : List ListOp) (hindex : ∀ op ∈ ops, op.index < totalTask) {s : ListStore π}
    (hrun : (forM ops ListOp.perform).run (registered parent totalTask regs) = .ok ⟨⟩ s) :
    (∀ pre t, pre <+: ops →
      (forM pre ListOp.perform).run (registered parent totalTask regs) = .ok ⟨⟩ t →
      t.Lookups totalTask regs (writesOf pre)) ↔
    ∀ pre op t, pre ++ [op] <+: ops →
      (forM pre ListOp.perform).run (registered parent totalTask regs) = .ok ⟨⟩ t →
      op.Tidy totalTask t := by
  refine forM_forall_prefix_iff
    (fun pre t => ListTracks totalTask (totalTask - 1) regs (writesOf pre) t)
    (fun pre t => t.Lookups totalTask regs (writesOf pre)) (fun op t => op.Tidy totalTask t)
    (ListTracks.of_registered parent totalTask _ regs) (fun pre op t t' hop ht htidy hstep => ?_)
    (fun pre t ht => ht.lookups) (fun pre op t t' hop ht hstep hlook => ?_) hrun
  · rw [writesOf_append]
    cases op with
    | write op =>
      have hi : op.index < totalTask := hindex _ hop
      rcases Nat.lt_or_eq_of_le hi with hlt | hlast
      · exact ht.step_clean (Nat.sub_le _ _) (by omega) (htidy.1 hlt) hstep
      · exact ht.step_last (by omega) (by omega) (htidy.2 hlast) hstep
    | getLatestBeforeIndex index key =>
      obtain ⟨-, rfl⟩ := EStateM.Result.ok.inj hstep
      rwa [ListOp.write?, Option.toList_none, List.append_nil]
    | getLatestBeforeIndexExpansion index key =>
      obtain ⟨-, rfl⟩ := EStateM.Result.ok.inj hstep
      rw [ListOp.write?, Option.toList_none, List.append_nil]
      exact ht.expansion index key
  · cases op with
    | write op =>
      rw [writesOf_append] at hlook
      exact ⟨fun hi => ht.clean_of_lookups hi hstep hlook,
        fun hi k hk => ht.hasPlaces_of_deletes hi hstep hlook hk⟩
    | getLatestBeforeIndex index key => trivial
    | getLatestBeforeIndexExpansion index key => trivial

/-- A key registered twice, written by the first of two transactions and then looked up. -/
theorem ListStore.lookups_iff_tidy_run :
    let ops := [ListOp.write (.setWriteset 0 0 (AList.singleton [1] (some [7]))),
      ListOp.getLatestBeforeIndexExpansion 1 [1]]
    ∃ s : ListStore Unit,
      (forM ops ListOp.perform).run (registered () 2 [[1], [1]]) = .ok ⟨⟩ s ∧
      ((∀ pre t, pre <+: ops →
        (forM pre ListOp.perform).run (registered () 2 [[1], [1]]) = .ok ⟨⟩ t →
        t.Lookups 2 [[1], [1]] (writesOf pre)) ↔
      ∀ pre op t, pre ++ [op] <+: ops →
        (forM pre ListOp.perform).run (registered () 2 [[1], [1]]) = .ok ⟨⟩ t →
        op.Tidy 2 t) := by
  refine exists_run_of_endsIn (p := fun _ => true) (by decide +kernel) fun s hrun _ => ?_
  exact ListStore.lookups_iff_tidy () 2 [[1], [1]] _ (by simp [ListOp.index, StoreOp.index]) hrun

/-- **A key registered once loses its versions**: the slice has one place, the version is
written there, and the lookup of the next transaction does not reach it. -/
theorem ListStore.lookup_misses_short_slice : ∃ s : ListStore Unit,
    (forM [ListOp.write (.setWriteset 0 0 (AList.singleton [1] (some [7])))]
      ListOp.perform).run (registered () 2 [[1]]) = .ok ⟨⟩ s ∧
    s.getLatestBeforeIndex 1 [1] = none ∧
    latestBelow (fun i => currentEntry
      (writesOf [.write (.setWriteset 0 0 (AList.singleton [1] (some [7])))]) i [1]) 1 =
      some (newValueItem 0 0 (some [7])) := by
  refine exists_run_of_endsIn (p := fun s => decide (s.getLatestBeforeIndex 1 [1] = none))
    (by decide +kernel) fun s _ hs => ?_
  exact ⟨of_decide_eq_true hs, by decide +kernel⟩

/-- **The two stores agree.** When the same writes are made to both and are tidy for the list
store, every lookup of a registered key in a block finds the same version in both. -/
theorem ListStore.agrees_with_store {versionList : Bool} {totalTask : ℕ} {regs : List Bytes}
    {ops : List StoreOp} {parent : π} {s : Store π} {l : ListStore π} (htotal : totalTask ≤ 10000)
    (hindex : ∀ op ∈ ops, op.index < totalTask)
    (hrun : (forM ops (StoreOp.perform versionList totalTask)).run (newMultiVersionStore parent) =
      .ok ⟨⟩ s)
    (hlist : (forM ops StoreOp.performList).run (registered parent totalTask regs) = .ok ⟨⟩ l)
    (htidy : ∀ pre op t, pre ++ [op] <+: ops →
      (forM pre StoreOp.performList).run (registered parent totalTask regs) = .ok ⟨⟩ t →
      op.Tidy totalTask t) (k : Bytes) (hk : k ∈ regs) (j : ℕ) (hj : j < totalTask) :
    s.getLatestBeforeIndex j k = .ok (l.getLatestBeforeIndex j k) ∧
      s.getLatestBeforeIndex j k = .ok (l.getLatestBeforeIndexExpansion j k).1 := by
  have htracks : ListTracks totalTask (totalTask - 1) regs ops l := by
    refine forM_ok_of_guarded (ListTracks totalTask (totalTask - 1) regs)
      (fun op t => op.Tidy totalTask t) (ListTracks.of_registered parent totalTask _ regs)
      (fun pre op t t' hop ht htidy hstep => ?_) htidy hlist
    rcases Nat.lt_or_eq_of_le (hindex op hop) with hlt | hlast
    · exact ht.step_clean (Nat.sub_le _ _) (by omega) (htidy.1 hlt) hstep
    · exact ht.step_last (by omega) (by omega) (htidy.2 hlast) hstep
  obtain ⟨hlookup, hexpansion⟩ := htracks.lookups k hk j hj
  rw [(Tracks.of_run htotal hindex hrun).getLatestBeforeIndex_eq hj, hlookup, hexpansion]
  exact ⟨rfl, rfl⟩

/-- The first of two transactions writes a key that is registered twice. -/
theorem ListStore.agrees_with_store_two :
    let ops := [StoreOp.setWriteset 0 1 (AList.singleton [1] (some [7]))]
    ∃ s : Store Unit,
      (forM ops (StoreOp.perform false 2)).run (newMultiVersionStore ()) = .ok ⟨⟩ s ∧
      ∃ l : ListStore Unit,
        (forM ops StoreOp.performList).run (registered () 2 [[1], [1]]) = .ok ⟨⟩ l ∧
        s.getLatestBeforeIndex 1 [1] = .ok (l.getLatestBeforeIndex 1 [1]) := by
  refine exists_run_of_endsIn (p := fun _ => true) (by decide +kernel) fun s hrun _ => ?_
  refine exists_run_of_endsIn (p := fun _ => true) (by decide +kernel) fun l hlist _ => ?_
  refine (ListStore.agrees_with_store (by decide) (by simp [StoreOp.index]) hrun hlist
    (fun pre op t hpre ht => ?_) [1] List.mem_cons_self 1 (by decide)).1
  obtain rfl : pre = [] := by simpa using hpre.length_le
  obtain ⟨rfl, -⟩ := List.cons_prefix_cons.mp hpre
  obtain ⟨-, rfl⟩ := EStateM.Result.ok.inj ht
  have hplaces : ((registered () 2 [[1], [1]]).shardMap.get [1]).all
      (2 ≤ ·.valueList.length) = true := by decide +kernel
  refine ⟨fun _ => ⟨fun k hk m hm => ?_, .inl (by decide)⟩, fun hlast => absurd hlast (by decide)⟩
  obtain ⟨v, hv⟩ := mem_iff_exists_lookup.mp hk
  obtain ⟨rfl, -⟩ := lookup_singleton_iff.mp hv
  rw [hm] at hplaces
  exact of_decide_eq_true hplaces

/-! ### Bookkeeping with a place for every transaction -/

/-- The recorded keys of every transaction, and the registered keys with a version of it,
are the keys of its current write set. -/
def ListStore.Exact (totalTask : ℕ) (regs : List Bytes) (ops : List StoreOp)
    (s : ListStore π) : Prop :=
  ∀ i < totalTask, (∀ k, k ∈ s.writesetKeys i ↔ k ∈ currentWriteset ops i) ∧
    ∀ k ∈ regs, (∃ e ∈ s.versions k, e.index = i) ↔ k ∈ currentWriteset ops i

/-- A `SetWriteset` that replaces the recorded keys: it rewrites them all, or it removes
them and records new ones. -/
def StoreOp.ReplacesOld (s : ListStore π) : StoreOp → Prop
  | setWriteset index inc ws =>
    (∀ k ∈ s.writesetKeys index, k ∈ ws) ∨ (0 < inc ∧ ws.keys ≠ [])
  | invalidateWriteset _ _ => True
  | setEstimatedWriteset _ _ _ => True

/-- The refinement of the whole history, with exactly one place for every transaction and no
stale recorded key. -/
structure ListExact (totalTask : ℕ) (regs : List Bytes) (ops : List StoreOp)
    (s : ListStore π) : Prop where
  tracks : ListTracks totalTask totalTask regs ops s
  mem_iff : ∀ i < totalTask, ∀ k, k ∈ s.writesetKeys i ↔ k ∈ currentWriteset ops i
  fits_iff : ∀ k item, s.item k = some item → ∀ i, item.fits i ↔ i < totalTask

namespace ListExact

variable {totalTask : ℕ} {regs : List Bytes} {pre : List StoreOp} {s s' : ListStore π}

theorem of_registered (parent : π) (totalTask : ℕ) {regs : List Bytes}
    (hregs : ∀ k ∈ regs, 2 ≤ regs.count k) :
    ListExact totalTask regs [] (registered parent totalTask regs) := by
  refine ⟨ListTracks.of_registered parent totalTask totalTask regs, fun i _ k => ?_,
    fun k item h i => ?_⟩
  · rw [writesetKeys_registered]
    exact ⟨fun h => absurd h List.not_mem_nil, fun h => absurd h (AList.notMem_empty k)⟩
  · obtain ⟨hk, size, rfl, hsize⟩ := item_registered h
    rw [hsize (hregs k hk), MultiVersionValue.fits, newMultiVersionListItem,
      List.length_replicate]

section

variable (h : ListExact totalTask regs pre s)
include h

variable {op : StoreOp}

/-- The keys with a version of a transaction are those of its current write set. -/
theorem exists_version_iff {i : ℕ} (hi : i < totalTask) {k : Bytes} :
    (∃ e ∈ s.versions k, e.index = i) ↔ k ∈ currentWriteset pre i := by
  rw [← h.tracks.exists_slot_iff hi]
  constructor
  · rintro ⟨e, he, rfl⟩
    obtain ⟨c, hc⟩ := ListStore.mem_versions.mp he
    have hlt : c < totalTask := by
      obtain ⟨item, hitem, hslot⟩ := bind_eq_some_iff.mp hc
      exact (h.fits_iff k item hitem c).mp (MultiVersionValue.fits_of_slot hslot)
    have hentry : currentEntry pre c k = some e := by
      rw [← h.tracks.slot_eq k c hlt, observed_eq_some]
      exact ⟨hc, hi⟩
    obtain rfl := index_currentEntry hentry
    exact ⟨e, hc, rfl⟩
  · rintro ⟨e, he, hidx⟩
    exact ⟨e, ListStore.mem_versions.mpr ⟨i, he⟩, hidx⟩

/-- The state before the call is exact. -/
theorem exact : s.Exact totalTask regs pre :=
  fun i hi => ⟨h.mem_iff i hi, fun _ _ => h.exists_version_iff hi⟩

/-- With a place for every transaction, an operation that replaces the old keys is clean. -/
theorem clean (hi : op.index < totalTask) (hop : op.ReplacesOld s) : op.Clean totalTask s := by
  have hplaces : ∀ k, HasPlaces totalTask s k := by
    intro k m hm
    have hlast : ¬ m.valueList.length < m.valueList.length := lt_irrefl _
    have hiff := h.fits_iff k (.list m) (by rw [ListStore.item, hm]; rfl) m.valueList.length
    exact Nat.not_lt.mp fun hlt => hlast (hiff.mpr hlt)
  cases op with
  | setWriteset index inc ws =>
    refine ⟨fun k _ => hplaces k, ?_⟩
    rcases hop with hold | ⟨hinc, -⟩
    · refine .inr fun k hk => hold k ?_
      rw [h.mem_iff index hi]
      exact (h.tracks.exists_slot_iff hi).mp hk
    · exact .inl hinc
  | invalidateWriteset index inc =>
    intro k hk
    rw [h.mem_iff index hi] at hk
    exact (h.tracks.exists_slot_iff hi).mpr hk
  | setEstimatedWriteset index inc ws => exact fun k _ => hplaces k

/-- An operation that records the keys it was given keeps the bookkeeping exact. -/
theorem of_listWrite {gone keys recorded : List Bytes} {v : Bytes → ℕ → ValueItem}
    (htracks : ListTracks totalTask totalTask regs (pre ++ [op]) s')
    (hw : ListWrite op.index gone keys v recorded s s')
    (hrecorded : ∀ k, k ∈ recorded ↔ k ∈ op.given.getD (currentWriteset pre op.index)) :
    ListExact totalTask regs (pre ++ [op]) s' := by
  refine ⟨htracks, fun i hi k => ?_, fun k item' hitem' i => ?_⟩
  · rw [hw.writesetKeys_eq, currentWriteset_append]
    by_cases hidx : i = op.index
    · rw [if_pos hidx, if_pos hidx.symm, hidx]
      exact hrecorded k
    · rw [if_neg hidx, if_neg (Ne.symm hidx)]
      exact h.mem_iff i hi k
  · obtain ⟨item, hitem, hfits⟩ := hw.exists_item hitem'
    rw [hfits]
    exact h.fits_iff k item hitem i

/-- An operation that replaces the old keys keeps the bookkeeping exact. -/
theorem step (hi : op.index < totalTask) (hop : op.ReplacesOld s)
    (hrun : op.performList.run s = .ok ⟨⟩ s') : ListExact totalTask regs (pre ++ [op]) s' := by
  have htracks := h.tracks.step_clean le_rfl hi (h.clean hi hop) hrun
  have hnodup := h.tracks.nodup op.index
  cases op with
  | setWriteset index inc ws =>
    refine h.of_listWrite htracks (setWriteset_ok hrun) fun k => ?_
    split
    · next hnil =>
      -- nothing is recorded, so there must not have been anything to replace
      have hmem : k ∉ ws := fun hk => by
        rw [AList.mem_keys, hnil] at hk
        exact absurd hk List.not_mem_nil
      rcases hop with hold | ⟨-, hne⟩
      · exact ⟨fun hk => absurd (hold k hk) hmem, fun hk => absurd hk hmem⟩
      · exact absurd hnil hne
    · exact mem_sortStrings
  | invalidateWriteset index inc =>
    exact h.of_listWrite htracks (invalidateWriteset_ok hnodup hrun) (h.mem_iff index hi)
  | setEstimatedWriteset index inc ws =>
    exact h.of_listWrite htracks (setEstimatedWriteset_ok hrun)
      fun _ => mem_sortStrings

/-- Conversely, bookkeeping that is exact after an operation was replaced by it: an old key
that is not rewritten would stay recorded or keep its version. -/
theorem replacesOld (hi : op.index < totalTask) (hrun : op.performList.run s = .ok ⟨⟩ s')
    (hexact : s'.Exact totalTask regs (pre ++ [op])) : op.ReplacesOld s := by
  cases op with
  | invalidateWriteset index inc => trivial
  | setEstimatedWriteset index inc ws => trivial
  | setWriteset index inc ws =>
    have hw := setWriteset_ok hrun
    obtain ⟨hrecorded, hversions⟩ := hexact index hi
    simp only [currentWriteset_append, StoreOp.index, StoreOp.given, if_true,
      Option.getD_some] at hrecorded hversions
    rw [StoreOp.ReplacesOld, or_iff_not_imp_right]
    intro hnot k hk
    by_cases hnil : ws.keys = []
    · rw [← hrecorded, hw.writesetKeys_eq, if_pos rfl, if_pos hnil]
      exact hk
    · have hinc : ¬ 0 < inc := fun hinc => hnot ⟨hinc, hnil⟩
      by_contra hws
      rw [h.mem_iff index hi] at hk
      -- the version of `k` is left where it was
      have hkept := hw.kept k (by rwa [mem_sortStrings])
        (by rw [if_neg hinc]; exact List.not_mem_nil)
      obtain ⟨e, he, hidx⟩ := (h.exists_version_iff hi).mpr hk
      have hregs : k ∈ regs := by
        obtain ⟨i, hslot⟩ := ListStore.mem_versions.mp he
        obtain ⟨item, hitem, -⟩ := bind_eq_some_iff.mp hslot
        exact h.tracks.mem_regs k item hitem
      refine hws ((hversions k hregs).mp ⟨e, ?_, hidx⟩)
      rwa [ListStore.versions, hkept, ← ListStore.versions]

end

end ListExact

/-- **Bookkeeping of the list store.** Take keys that are each registered twice, so that
their slices have a place for every transaction. In every state of a run the
recorded keys and the keys with a version are those of the current write sets, exactly when
each `SetWriteset` of the run rewrites all recorded keys of its transaction, or has a
positive incarnation and a non-empty write set. -/
theorem ListStore.bookkeeping_iff_replacesOld (parent : π) (totalTask : ℕ)
    (regs : List Bytes) (hregs : ∀ k ∈ regs, 2 ≤ regs.count k)
    (ops : List StoreOp) (hindex : ∀ op ∈ ops, op.index < totalTask) {s : ListStore π}
    (hrun : (forM ops StoreOp.performList).run (registered parent totalTask regs) = .ok ⟨⟩ s) :
    (∀ pre t, pre <+: ops →
      (forM pre StoreOp.performList).run (registered parent totalTask regs) = .ok ⟨⟩ t →
      t.Exact totalTask regs pre) ↔
    ∀ pre op t, pre ++ [op] <+: ops →
      (forM pre StoreOp.performList).run (registered parent totalTask regs) = .ok ⟨⟩ t →
      op.ReplacesOld t := by
  refine forM_forall_prefix_iff (ListExact totalTask regs)
    (fun pre t => t.Exact totalTask regs pre) (fun op t => op.ReplacesOld t)
    (ListExact.of_registered parent totalTask hregs) (fun pre op t t' hop ht hold hstep => ?_)
    (fun pre t ht => ht.exact) (fun pre op t t' hop ht hstep hexact => ?_) hrun
  · exact ht.step (hindex op hop) hold hstep
  · exact ht.replacesOld (hindex op hop) hstep hexact

/-- A write set and its replacement at the next incarnation. -/
theorem ListStore.bookkeeping_iff_replacesOld_run :
    let ops := [StoreOp.setWriteset 0 0 (AList.singleton [1] (some [7])),
      StoreOp.setWriteset 0 1 (AList.singleton [2] (some [8]))]
    ∃ s : ListStore Unit,
      (forM ops StoreOp.performList).run (registered () 2 [[1], [1], [2], [2]]) = .ok ⟨⟩ s ∧
      ((∀ pre t, pre <+: ops →
        (forM pre StoreOp.performList).run (registered () 2 [[1], [1], [2], [2]]) = .ok ⟨⟩ t →
        t.Exact 2 [[1], [1], [2], [2]] pre) ↔
      ∀ pre op t, pre ++ [op] <+: ops →
        (forM pre StoreOp.performList).run (registered () 2 [[1], [1], [2], [2]]) = .ok ⟨⟩ t →
        op.ReplacesOld t) := by
  refine exists_run_of_endsIn (p := fun _ => true) (by decide +kernel) fun s hrun _ => ?_
  exact ListStore.bookkeeping_iff_replacesOld () 2 [[1], [1], [2], [2]] (by decide) _
    (by simp [StoreOp.index]) hrun

/-- **An empty write set leaves a stale key behind**: the version of the key is removed, but
the key stays recorded for the transaction. -/
theorem ListStore.stale_key_of_empty_writeset : ∃ s : ListStore Unit,
    (forM [StoreOp.setWriteset 0 0 (AList.singleton [1] (some [7])),
      StoreOp.setWriteset 0 1 ∅] StoreOp.performList).run (registered () 2 [[1], [1]]) =
      .ok ⟨⟩ s ∧
    currentWriteset [StoreOp.setWriteset 0 0 (AList.singleton [1] (some [7])),
      StoreOp.setWriteset 0 1 ∅] 0 = ∅ ∧
    s.versions [1] = [] ∧ s.writesetKeys 0 = [[1]] := by
  refine exists_run_of_endsIn
    (p := fun s => decide (s.versions [1] = [] ∧ s.writesetKeys 0 = [[1]])) (by decide +kernel)
    fun s _ hs => ?_
  exact ⟨rfl, of_decide_eq_true hs⟩

end MelodiaStore
