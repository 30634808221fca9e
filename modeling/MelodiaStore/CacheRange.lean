import MelodiaStore.CacheWrite

/-!
# Ranges of the Cache Store

What the operations of `cachekv/store.go` that take a range make of its ends.

An iterator over a reversed range moves nothing to the sorted cache, and so does not make the
tree either, which it copies all the same. Whether it panics depends on the iterators made
before.

`GetAllKeyStrsInRange` corrects the listing of the parent by the entries of the cache in the
range. It compares them with `bytes.Compare`, to which an end that is `nil` comes before every
key, so that without an end no entry counts. `DeleteAll` deletes what is listed.

## Main results

* `CacheKVStore.reversed_iterator_iff`: an iterator over a reversed range is made, and is not
  valid, exactly if there was such an iterator before.
* `CacheKVStore.range_operations_iff`: listing and deleting a range agree with iteration exactly
  if the range has an end, or the cache decides about its keys as the parent does.
-/

namespace MelodiaStore

open CacheMaps (reversed)

/-! ### Reversed ranges -/

/-- The call makes an iterator over a range that is not reversed. -/
def CacheCall.Sorts : CacheCall → Prop
  | .traverse _ start stop _ => reversed start stop = false
  | _ => False

/-- The call makes an iterator over a range that is not reversed. -/
def LaterCall.Sorts {β : Type} : LaterCall β → Prop
  | cache call => call.Sorts
  | parent _ => False

namespace CacheKVStore

variable {β : Type} {store store' : CacheKVStore β} {key : Bytes} {start stop : Slice}

/-- A `Set` sorts nothing. -/
theorem sortedCache_set {value : Slice} (h : store.set key value = .ok store') :
    store'.maps.sortedCache = store.maps.sortedCache := by
  unfold set at h
  split at h
  · cases h
  · cases h
  · cases h
    rfl

/-- A `Delete` sorts nothing. -/
theorem sortedCache_delete (h : store.delete key = .ok store') :
    store'.maps.sortedCache = store.maps.sortedCache := by
  unfold delete at h
  split at h
  · cases h
  · cases h
    rfl

theorem sortedCache_updating {f : CacheKVStore β → Except Panic (CacheKVStore β)}
    (hf : ∀ {store store'}, f store = .ok store' →
      store'.maps.sortedCache = store.maps.sortedCache) (a : CacheAnswer)
    (store : CacheKVStore β) :
    (outcome (updating f a) store).2.maps.sortedCache = store.maps.sortedCache := by
  cases hrun : f store with
  | error e => rw [outcome_updating_of_error hrun]
  | ok store' => rw [outcome_updating_of_ok hrun, hf hrun]

variable [LawfulKVStore β]

/-- **What makes the tree**: a call that makes an iterator over a range that is not reversed;
the others leave it as it is. -/
theorem isSome_sortedCache_perform (call : CacheCall) (store : CacheKVStore β) :
    (outcome (perform call) store).2.maps.sortedCache.isSome = true ↔
      store.maps.sortedCache.isSome = true ∨ call.Sorts := by
  cases call with
  | set key value =>
    rw [perform, sortedCache_updating sortedCache_set]
    exact (or_iff_left id).symm
  | delete key =>
    rw [perform, sortedCache_updating sortedCache_delete]
    exact (or_iff_left id).symm
  | get key | has key =>
    rw [perform, outcome_reading]
    exact (or_iff_left id).symm
  | write order =>
    obtain ⟨p', hrun, -, -⟩ := store.run_write order
    rw [perform, snd_outcome_bind (fun _ => readOnly_pure _), outcome_of_ok hrun]
    exact (or_iff_left id).symm
  | traverse order start stop ascending =>
    rw [perform, snd_outcome_bind (fun _ => readOnly_pure _), snd_outcome_traverse,
      CacheCall.Sorts]
    cases hrange : reversed start stop with
    | true => simp [dirtyItems, CacheMaps.dirtyItems_of_reversed hrange]
    | false =>
      obtain ⟨tree, htree⟩ :
          ∃ tree, (store.maps.dirtyItems order start stop).sortedCache = some tree :=
        CacheMaps.exists_sortedCache_dirtyItems hrange
      simp [dirtyItems, htree]

/-- **When there is a tree**: after a run of which some call has made it. -/
theorem isSome_sortedCache_iff (calls : List (LaterCall β)) (store : CacheKVStore β) :
    (outcomes LaterCall.perform calls store).2.maps.sortedCache.isSome = true ↔
      store.maps.sortedCache.isSome = true ∨ ∃ call ∈ calls, call.Sorts := by
  induction calls generalizing store with
  | nil => simp [outcomes]
  | cons call calls ih =>
    have hfirst : (outcome call.perform store).2.maps.sortedCache.isSome = true ↔
        store.maps.sortedCache.isSome = true ∨ call.Sorts := by
      cases call with
      | cache call =>
        rw [LaterCall.perform, snd_outcome_bind (fun _ => readOnly_pure _)]
        exact isSome_sortedCache_perform call store
      | parent change =>
        rw [LaterCall.perform, outcome_zoom, LaterCall.Sorts, or_false]
    rw [List.exists_mem_cons_iff, ← or_assoc, ← hfirst]
    exact ih _

omit [LawfulKVStore β] in
/-- A reversed range moves nothing. -/
theorem dirtyItems_of_reversed (h : reversed start stop = true)
    (order : Traversal Bytes Unit) (store : CacheKVStore β) :
    store.dirtyItems order start stop = store := by
  obtain ⟨maps, parent, wf⟩ := store
  simp only [dirtyItems, CacheMaps.dirtyItems_of_reversed h]

/-- An iterator over a reversed range is made exactly if there is a tree to copy. It shows
nothing, and to make it changes nothing. -/
theorem iterator_of_reversed (h : reversed start stop = true) (hstart : start ≠ some [])
    (hstop : stop ≠ some []) (order : Traversal Bytes Unit) (ascending : Bool)
    (store : CacheKVStore β) :
    (∃ it, (iterator order start stop ascending).run store = .ok it store ∧ it.valid = false) ↔
      store.maps.sortedCache.isSome = true := by
  constructor
  · rintro ⟨it, hrun, -⟩
    rw [iterator, run_bind_of_ok (EStateM.run_modify _ store), run_bind_of_ok (EStateM.run_get _),
      dirtyItems_of_reversed h, run_ofExcept_bind_eq_ok] at hrun
    obtain ⟨tree, hcopy, -⟩ := hrun
    rw [copySorted] at hcopy
    cases hsorted : store.maps.sortedCache with
    | none => rw [hsorted] at hcopy; cases hcopy
    | some tree' => rfl
  · intro hsome
    obtain ⟨tree, htree⟩ := Option.isSome_iff_exists.mp hsome
    have hcopied : (store.dirtyItems order start stop).maps.sortedCache = some tree := by
      rw [dirtyItems_of_reversed h, htree]
    obtain ⟨it, hrun⟩ := exists_iterator_of_tree ascending hcopied hstart hstop
    obtain ⟨-, hready, -, hmem⟩ := iterator_eq_ok hrun
    rw [dirtyItems_of_reversed h] at hrun
    refine ⟨it, hrun, ?_⟩
    have hnil : it.entries = [] := List.eq_nil_iff_forall_not_mem.mpr fun e he => by
      have hdom := ((hmem e.1 e.2).mp he).1
      rw [CacheMaps.isKeyInDomain_of_reversed h] at hdom
      cases hdom
    rw [hready.valid_eq, hnil]
    rfl

/-- **When an iterator over a reversed range is made.** After any calls on a new store and any
changes of its parent, the iterator over a reversed range with non-empty ends is made, is not
valid and leaves the store as it is, if and only if one of those calls has made an iterator
over a range that is not reversed. -/
theorem reversed_iterator_iff (parent : β) (calls : List (LaterCall β)) {start stop : Bytes}
    (hstop : stop ≠ []) (hrange : stop < start) (order : Traversal Bytes Unit)
    (ascending : Bool) :
    (∃ it, (iterator order (some start) (some stop) ascending).run
        (outcomes LaterCall.perform calls (newStore parent)).2 =
          .ok it (outcomes LaterCall.perform calls (newStore parent)).2 ∧ it.valid = false) ↔
      ∃ call ∈ calls, call.Sorts := by
  have hreversed : reversed (some start) (some stop) = true := decide_eq_true hrange
  have hstart : start ≠ [] := by
    rintro rfl
    exact List.not_lt_nil stop hrange
  rw [iterator_of_reversed hreversed (fun h => hstart (Option.some.inj h))
    (fun h => hstop (Option.some.inj h)), isSome_sortedCache_iff]
  exact or_iff_right Bool.false_ne_true

/-- After a traversal of everything, and a write, a reversed range is empty. -/
theorem reversed_iterator_of_traverse :
    (∃ it, (iterator .listed (some [2]) (some [1]) true).run
        (outcomes LaterCall.perform [.cache (.traverse .listed none none true),
          .cache (.set [1] (some [5]))] (newStore DbAdapter.empty)).2 =
          .ok it (outcomes LaterCall.perform [.cache (.traverse .listed none none true),
            .cache (.set [1] (some [5]))] (newStore DbAdapter.empty)).2 ∧ it.valid = false) ↔
      ∃ call ∈ [LaterCall.cache (β := DbAdapter) (.traverse .listed none none true),
        .cache (.set [1] (some [5]))], call.Sorts :=
  reversed_iterator_iff DbAdapter.empty _ (by decide) (by decide) .listed true

/-- **A new store panics on a reversed range**, in both directions. -/
theorem reversed_iterator_panics :
    (iterator .listed (some [2]) (some [1]) true).run (newStore DbAdapter.empty) =
        .error (.error "invalid memory address or nil pointer dereference")
          (newStore DbAdapter.empty) ∧
      (iterator .listed (some [2]) (some [1]) false).run (newStore DbAdapter.empty) =
        .error (.error "invalid memory address or nil pointer dereference")
          (newStore DbAdapter.empty) :=
  ⟨rfl, rfl⟩

end CacheKVStore

/-! ### Listing the keys of a range -/

/-- `GetAllKeyStrsInRange` of `types.KVStore`. -/
class RangeListing (π : Type) where
  getAllKeyStrsInRange : π → Slice → Slice → Except Panic (List Bytes)

/-- **The contract of a parent store**: where it has an iterator it lists the keys that the
iterator shows, each once. -/
class LawfulListing (π : Type) [KVStore π] [RangeListing π] : Prop where
  exists_listing : ∀ (p : π) (start stop : Slice) (l : List (Bytes × Bytes)),
    KVStore.iterator p start stop true = .ok l →
      ∃ keys, RangeListing.getAllKeyStrsInRange p start stop = .ok keys ∧ keys.Nodup ∧
        ∀ k, k ∈ keys ↔ k ∈ l.map Prod.fst

/-- `dbadapter.Store.GetAllKeyStrsInRange`. -/
def DbAdapter.getAllKeyStrsInRange (dsa : DbAdapter) (start stop : Slice) :
    Except Panic (List Bytes) := do
  let iter ← dsa.iterator start stop true
  pure (iter.map Prod.fst)

instance : RangeListing DbAdapter where
  getAllKeyStrsInRange := DbAdapter.getAllKeyStrsInRange

instance : LawfulListing DbAdapter where
  exists_listing p start stop l h := by
    have hiter : p.iterator start stop true = .ok l := h
    have hkeys : (l.map Prod.fst).Pairwise (· < ·) :=
      List.pairwise_map.mpr ((DbAdapter.pairwise_iterator hiter).imp (before_true _ _).mp)
    refine ⟨l.map Prod.fst, ?_, hkeys.imp ne_of_lt, fun _ => Iff.rfl⟩
    change p.getAllKeyStrsInRange start stop = _
    rw [DbAdapter.getAllKeyStrsInRange, hiter]
    rfl

namespace CacheKVStore

/-- What `GetAllKeyStrsInRange` does with an entry of the cache: `bytes.Compare` takes a bound
that is `nil` for the empty key. -/
def listEntry (start stop : Slice) (keyStrs : GoMap Bytes Unit) (entry : (_ : Bytes) × CValue) :
    GoMap Bytes Unit :=
  if entry.1 < start.getD [] ∨ stop.getD [] ≤ entry.1 then keyStrs
  else
    match entry.2.value with
    | none => keyStrs.erase entry.1
    | some _ => keyStrs.insert entry.1 ()

variable {β : Type} {start stop : Slice} {k : Bytes} {m : GoMap Bytes Unit}
  {e : (_ : Bytes) × CValue}

/-- `GetAllKeyStrsInRange`, with the orders in which it visits the cache and the map of the
keys it has found. -/
def getAllKeyStrsInRange [RangeListing β] (order : Traversal Bytes CValue)
    (collect : Traversal Bytes Unit) (start stop : Slice) (store : CacheKVStore β) :
    Except Panic (List Bytes) := do
  let parentKeys ← RangeListing.getAllKeyStrsInRange store.parent start stop
  let keyStrs : GoMap Bytes Unit := parentKeys.foldl (fun keyStrs pk => keyStrs.insert pk ()) ∅
  let keyStrs := (order.visit store.maps.cache).foldl (listEntry start stop) keyStrs
  pure ((collect.visit keyStrs).map Sigma.fst)

/-- `DeleteAll`. -/
def deleteAll [RangeListing β] (order : Traversal Bytes CValue) (collect : Traversal Bytes Unit)
    (start stop : Slice) : EStateM Panic (CacheKVStore β) PUnit := do
  let keys ← ofExcept ((← MonadState.get).getAllKeyStrsInRange order collect start stop)
  forM keys fun k => updating (delete · k) ⟨⟩

/-- The keys of the cache that are taken into account. -/
def Counted (start stop : Slice) (k : Bytes) : Prop := start.getD [] ≤ k ∧ k < stop.getD []

/-- With an end these are the keys of the range. -/
theorem counted_iff {stop : Bytes} :
    Counted start (some stop) k ↔ isKeyInDomain k start (some stop) = true := by
  rw [isKeyInDomain_iff]
  simp [Counted]

/-- Without an end the range has every key from its start on. -/
theorem isKeyInDomain_none : isKeyInDomain k start none = true ↔ start.getD [] ≤ k := by
  simp [isKeyInDomain_iff]

/-- And none of them is taken into account. -/
theorem not_counted_none : ¬ Counted start none k :=
  fun h => List.not_lt_nil k h.2

theorem listEntry_of_not_counted (h : ¬ Counted start stop e.1) : listEntry start stop m e = m := by
  rw [Counted, not_and_or, not_le, not_lt] at h
  exact if_pos h

theorem listEntry_of_counted {cv : CValue} (h : Counted start stop k) :
    listEntry start stop m ⟨k, cv⟩ =
      match cv.value with
      | none => m.erase k
      | some _ => m.insert k () :=
  if_neg (not_or.mpr ⟨not_lt.mpr h.1, not_le.mpr h.2⟩)

/-- An entry decides about its own key only. -/
theorem mem_listEntry_of_ne (hk : k ≠ e.1) : k ∈ listEntry start stop m e ↔ k ∈ m := by
  obtain ⟨key, cv⟩ := e
  by_cases hcounted : Counted start stop key
  · rw [listEntry_of_counted hcounted]
    cases cv.value with
    | none => simp [hk]
    | some v => simp [hk]
  · rw [listEntry_of_not_counted hcounted]

/-- **What the loop over the cache leaves**: an entry that is taken into account decides about
its key. -/
theorem mem_foldl_listEntry {l : List ((_ : Bytes) × CValue)} (hnodup : (l.map Sigma.fst).Nodup) :
    k ∈ l.foldl (listEntry start stop) m ↔
      Counted start stop k ∧ (∃ cv, ⟨k, cv⟩ ∈ l ∧ cv.value.isSome = true) ∨
        k ∈ m ∧ (Counted start stop k → k ∉ l.map Sigma.fst) := by
  induction l generalizing m with
  | nil => simp
  | cons e l ih =>
    obtain ⟨key, cv⟩ := e
    obtain ⟨hfresh, hnodup⟩ := List.nodup_cons.mp hnodup
    rw [List.foldl_cons, ih hnodup]
    by_cases hk : k = key
    · -- the key does not come again
      subst hk
      have hnone : ∀ cv' : CValue, (⟨k, cv'⟩ : (_ : Bytes) × CValue) ∉ l :=
        fun cv' hcv' => hfresh (List.mem_map.mpr ⟨⟨k, cv'⟩, hcv', rfl⟩)
      by_cases hcounted : Counted start stop k
      · rw [listEntry_of_counted hcounted]
        cases hvalue : cv.value with
        | none | some v => simp [hcounted, hnone, hvalue]
      · rw [listEntry_of_not_counted hcounted]
        simp [hcounted]
    · rw [mem_listEntry_of_ne hk]
      simp [hk]

/-- The loop over the keys of the parent. -/
theorem mem_foldl_insert {l : List Bytes} :
    k ∈ l.foldl (fun keyStrs pk => keyStrs.insert pk ()) m ↔ k ∈ l ∨ k ∈ m := by
  induction l generalizing m with
  | nil => simp
  | cons pk l ih =>
    rw [List.foldl_cons, ih, AList.mem_insert, List.mem_cons]
    tauto

/-- **What is listed**: the live keys of the cache that are taken into account, and those of
the parent that the cache has not decided about. Each is listed once. -/
theorem exists_listing [RangeListing β] {store : CacheKVStore β} {parentKeys : List Bytes}
    (hparent : RangeListing.getAllKeyStrsInRange store.parent start stop = .ok parentKeys)
    (order : Traversal Bytes CValue) (collect : Traversal Bytes Unit) :
    ∃ keys, store.getAllKeyStrsInRange order collect start stop = .ok keys ∧ keys.Nodup ∧
      ∀ k, k ∈ keys ↔
        Counted start stop k ∧
            (∃ cv, store.maps.cache.lookup k = some cv ∧ cv.value.isSome = true) ∨
          k ∈ parentKeys ∧ (Counted start stop k → k ∉ store.maps.cache) := by
  refine ⟨_, by rw [getAllKeyStrsInRange, hparent]; rfl, collect.nodup_visit _, fun k => ?_⟩
  have hcached : k ∈ (order.visit store.maps.cache).map Sigma.fst ↔ k ∈ store.maps.cache :=
    ((order.perm _).map Sigma.fst).mem_iff
  refine ((collect.perm _).map Sigma.fst).mem_iff.trans ?_
  refine (mem_foldl_listEntry (order.nodup_visit _)).trans ?_
  simp only [order.mem_visit, mem_entries_iff, hcached, mem_foldl_insert]
  rw [or_iff_left (AList.notMem_empty k)]

/-- The loop of `DeleteAll` removes the keys it is given. -/
theorem run_deleteKeys [LawfulKVStore β] {keys : List Bytes} (hkeys : ∀ k ∈ keys, ValidKey k)
    (store : CacheKVStore β) :
    ∃ store', (forM keys fun k => updating (delete · k) ⟨⟩ :
        EStateM Panic (CacheKVStore β) PUnit).run store = .ok ⟨⟩ store' ∧
      ∀ k, store'.contents k = if k ∈ keys then none else store.contents k := by
  induction keys generalizing store with
  | nil => exact ⟨store, rfl, fun k => rfl⟩
  | cons key keys ih =>
    have hkey := assertValidKey_eq_ok.mpr (hkeys key List.mem_cons_self)
    rcases store.delete_cases key with ⟨e, he, -⟩ | ⟨-, store₁, hdelete, -, -, hlive⟩
    · cases hkey.symm.trans he
    · obtain ⟨store', hrun, hcontents⟩ :=
        ih (fun k hk => hkeys k (List.mem_cons_of_mem key hk)) store₁
      have hround : (updating (delete · key) ⟨⟩ :
          EStateM Panic (CacheKVStore β) PUnit).run store = .ok ⟨⟩ store₁ := by
        simp only [updating, EStateM.run, hdelete]
      refine ⟨store', ?_, fun k => ?_⟩
      · rw [List.forM_cons, run_bind_of_ok hround]
        exact hrun
      · rw [hcontents, hlive, Function.update_apply]
        by_cases hk : k = key
        · simp [hk]
        · simp [hk]

section Range

variable [LawfulKVStore β] {store : CacheKVStore β} {start stop : Slice}

/-- The keys a traversal shows are those of the range that the store holds. -/
theorem exists_traverse_keys (store : CacheKVStore β) (order : Traversal Bytes Unit)
    (hrange : reversed start stop = false) (hstart : start ≠ some [])
    (hstop : stop ≠ some []) :
    ∃ pairs, (traverse order start stop true).run store =
        .ok pairs (store.dirtyItems order start stop) ∧
      ∀ k, k ∈ pairs.map Prod.fst ↔
        isKeyInDomain k start stop = true ∧ (store.contents k).isSome = true := by
  obtain ⟨l, hrun, -, hmem⟩ := store.exists_traverse order true hrange hstart hstop
  refine ⟨_, hrun, fun k => ?_⟩
  rw [List.map_map]
  exact mem_map_fst_iff hmem k

/-- The key is among the visible ones of the range: by its cached value, or else by the
parent's. -/
theorem contents_isSome_iff (store : CacheKVStore β) (k : Bytes) :
    (store.contents k).isSome = true ↔
      (∃ cv, store.maps.cache.lookup k = some cv ∧ cv.value.isSome = true) ∨
        k ∉ store.maps.cache ∧ (LawfulBasicKVStore.contents store.parent k).isSome = true := by
  rw [contents, CacheKV.contents, ← AList.lookup_eq_none]
  change ((((store.maps.cache.lookup k).map CValue.value).getD _).isSome = true) ↔ _
  cases store.maps.cache.lookup k with
  | none => simp [toCacheKV]
  | some cv => simp

/-- The cached keys from `start` on are live exactly where the parent has them. -/
def AgreesFrom (store : CacheKVStore β) (start : Slice) : Prop :=
  ∀ k cv, store.maps.cache.lookup k = some cv → start.getD [] ≤ k →
    (cv.value.isSome = true ↔ (LawfulBasicKVStore.contents store.parent k).isSome = true)

/-- **What is listed over a lawful parent**, against what the range holds. -/
theorem listing_exact_iff (store : CacheKVStore β) (start stop : Slice) :
    (∀ k, Counted start stop k ∧
            (∃ cv, store.maps.cache.lookup k = some cv ∧ cv.value.isSome = true) ∨
          (isKeyInDomain k start stop = true ∧
              (LawfulBasicKVStore.contents store.parent k).isSome = true) ∧
            (Counted start stop k → k ∉ store.maps.cache) ↔
        isKeyInDomain k start stop = true ∧ (store.contents k).isSome = true) ↔
      stop ≠ none ∨ store.AgreesFrom start := by
  simp only [contents_isSome_iff]
  cases stop with
  | some stop =>
    simp only [counted_iff, ne_eq, reduceCtorEq, not_false_eq_true, true_or, iff_true]
    intro k
    by_cases hk : isKeyInDomain k start (some stop) = true
    · simp [hk, and_comm]
    · simp [hk]
  | none =>
    simp only [not_counted_none, false_and, false_or, false_implies, and_true,
      isKeyInDomain_none, ne_eq, not_true_eq_false]
    constructor
    · intro h k cv hk hle
      have hmem : k ∈ store.maps.cache := mem_iff_exists_lookup.mpr ⟨cv, hk⟩
      simpa [hle, hk, hmem] using (h k).symm
    · intro h k
      refine and_congr_right fun hle => ?_
      cases hk : store.maps.cache.lookup k with
      | none => simp [AList.lookup_eq_none.mp hk]
      | some cv =>
        have hmem : k ∈ store.maps.cache := mem_iff_exists_lookup.mpr ⟨cv, hk⟩
        simpa [hmem] using (h k cv hk hle).symm

variable [RangeListing β]

/-- **The listing of a range agrees with the iterator**: whatever the orders, it has the keys
that a traversal of the range shows, each once. -/
def ListsRange (store : CacheKVStore β) (start stop : Slice) : Prop :=
  ∀ (order : Traversal Bytes CValue) (collect order' : Traversal Bytes Unit),
    ∃ keys pairs store', store.getAllKeyStrsInRange order collect start stop = .ok keys ∧
      (traverse order' start stop true).run store = .ok pairs store' ∧ keys.Nodup ∧
      ∀ k, k ∈ keys ↔ k ∈ pairs.map Prod.fst

/-- **`DeleteAll` empties the range**: a traversal of it shows nothing afterwards, and the keys
outside have the values they had. -/
def DeletesRange (store : CacheKVStore β) (start stop : Slice) : Prop :=
  ∀ (order : Traversal Bytes CValue) (collect order' : Traversal Bytes Unit),
    ∃ store', (deleteAll order collect start stop).run store = .ok ⟨⟩ store' ∧
      (∃ store'', (traverse order' start stop true).run store' = .ok [] store'') ∧
      ∀ k, isKeyInDomain k start stop = false → store'.get k = store.get k

/-- A listing that has the keys of the range is as good as the iterator, and so is the deletion
that goes through it. -/
theorem DeletesRange.of_listing (hrange : reversed start stop = false)
    (hstart : start ≠ some []) (hstop : stop ≠ some [])
    (h : ∀ (order : Traversal Bytes CValue) (collect : Traversal Bytes Unit),
      ∃ keys, store.getAllKeyStrsInRange order collect start stop = .ok keys ∧
        ∀ k, k ∈ keys ↔ isKeyInDomain k start stop = true ∧ (store.contents k).isSome = true) :
    store.DeletesRange start stop := by
  intro order collect order'
  obtain ⟨keys, hlist, hmem⟩ := h order collect
  have hvalid : ∀ k ∈ keys, ValidKey k := fun k hk => by
    obtain ⟨v, hv⟩ := Option.isSome_iff_exists.mp ((hmem k).mp hk).2
    exact store.toCacheKV.valid_of_contents hv
  obtain ⟨store', hrun, hcontents⟩ := run_deleteKeys hvalid store
  refine ⟨store', ?_, ?_, fun k hk => ?_⟩
  · rw [deleteAll, run_bind_of_ok (EStateM.run_get _), hlist,
      run_bind_of_ok (run_ofExcept_ok keys _)]
    exact hrun
  · obtain ⟨pairs, hpairs, hkeys⟩ := store'.exists_traverse_keys order' hrange hstart hstop
    have hnil : pairs = [] := by
      refine List.eq_nil_iff_forall_not_mem.mpr fun e he => ?_
      obtain ⟨hdom, hsome⟩ := (hkeys e.1).mp (List.mem_map_of_mem he)
      rw [hcontents] at hsome
      split at hsome
      · cases hsome
      · next hnot => exact hnot ((hmem e.1).mpr ⟨hdom, hsome⟩)
    exact ⟨_, hnil ▸ hpairs⟩
  · have hnot : k ∉ keys := fun h => by
      rw [((hmem k).mp h).1] at hk
      cases hk
    have hsame : store'.contents k = store.contents k := by rw [hcontents, if_neg hnot]
    rcases store.get_cases k with ⟨e, hcheck, hget⟩ | ⟨hcheck, hget⟩
    · rw [hget, get_of_error hcheck]
    · rw [hget, get_of_valid (validKey_of_assertValidKey hcheck), hsame]

/-- **When listing and deleting agree with iteration**: exactly when the range has an end, or
the cached keys from its start on are live exactly where the parent has them. -/
theorem range_operations_iff [LawfulListing β] (store : CacheKVStore β)
    (hrange : reversed start stop = false) (hstart : start ≠ some [])
    (hstop : stop ≠ some []) :
    store.ListsRange start stop ∧ store.DeletesRange start stop ↔
      stop ≠ none ∨ store.AgreesFrom start := by
  obtain ⟨l, hiter⟩ :=
    LawfulKVStore.exists_iterator store.parent start stop true hstart hstop
  obtain ⟨parentKeys, hparent, -, hparentKeys⟩ :=
    LawfulListing.exists_listing store.parent start stop l hiter
  have hmem : ∀ k, k ∈ parentKeys ↔ isKeyInDomain k start stop = true ∧
      (LawfulBasicKVStore.contents store.parent k).isSome = true := by
    intro k
    rw [hparentKeys]
    exact mem_map_fst_iff (LawfulKVStore.mem_iterator _ _ _ _ _ hiter) k
  rw [← listing_exact_iff store start stop]
  constructor
  · rintro ⟨hlists, -⟩ k
    obtain ⟨keys, pairs, store', hkeys, hpairs, -, hsame⟩ := hlists .listed .listed .listed
    obtain ⟨keys', hkeys', -, hlisted⟩ := store.exists_listing hparent .listed .listed
    obtain rfl := Except.ok.inj (hkeys.symm.trans hkeys')
    obtain ⟨pairs', hpairs', hshown⟩ := store.exists_traverse_keys .listed hrange hstart hstop
    obtain ⟨rfl, -⟩ := EStateM.Result.ok.inj (hpairs.symm.trans hpairs')
    rw [← hmem, ← hlisted, hsame, hshown]
  · intro hexact
    have hlist : ∀ (order : Traversal Bytes CValue) (collect : Traversal Bytes Unit),
        ∃ keys, store.getAllKeyStrsInRange order collect start stop = .ok keys ∧ keys.Nodup ∧
          ∀ k, k ∈ keys ↔
            isKeyInDomain k start stop = true ∧ (store.contents k).isSome = true := by
      intro order collect
      obtain ⟨keys, hkeys, hnodup, hlisted⟩ := store.exists_listing hparent order collect
      exact ⟨keys, hkeys, hnodup, fun k => by rw [hlisted, hmem, hexact]⟩
    refine ⟨fun order collect order' => ?_, .of_listing hrange hstart hstop fun order collect => ?_⟩
    · obtain ⟨keys, hkeys, hnodup, hlisted⟩ := hlist order collect
      obtain ⟨pairs, hpairs, hshown⟩ := store.exists_traverse_keys order' hrange hstart hstop
      exact ⟨keys, pairs, _, hkeys, hpairs, hnodup, fun k => (hlisted k).trans (hshown k).symm⟩
    · obtain ⟨keys, hkeys, -, hlisted⟩ := hlist order collect
      exact ⟨keys, hkeys, hlisted⟩

end Range

/-- A cached key in a range that has an end. -/
theorem range_operations_of_set : ∃ store : CacheKVStore DbAdapter,
    (newStore DbAdapter.empty).set [1] (some [5]) = .ok store ∧
      (store.ListsRange none (some [3]) ∧ store.DeletesRange none (some [3]) ↔
        (some [3] : Slice) ≠ none ∨ store.AgreesFrom none) :=
  ⟨_, rfl, range_operations_iff _ (by decide) (by decide) (by decide)⟩

/-- **Without an end the cache is left out**: a key that was set is shown by the iterator, but
neither listed nor deleted. -/
theorem range_operations_fail : ∃ (store store' : CacheKVStore DbAdapter),
    (newStore DbAdapter.empty).set [1] (some [5]) = .ok store ∧
      store.getAllKeyStrsInRange .listed .listed none none = .ok [] ∧
      (deleteAll .listed .listed none none).run store = .ok ⟨⟩ store' ∧
      (∃ store'', (traverse .listed none none true).run store =
        .ok [([1], some [5])] store'') ∧
      ∃ store'', (traverse .listed none none true).run store' = .ok [([1], some [5])] store'' :=
  ⟨_, _, rfl, rfl, rfl, ⟨_, rfl⟩, _, rfl⟩

end CacheKVStore

end MelodiaStore
