import MelodiaStore.CacheOverlay

/-!
# What `Write` Does to the Parent

Two properties of `cachekv.Store.Write` that the parent can see.

The calls it issues come in the order in which the cache happens to be visited. They are
always the same calls, but their sequence is determined only when there is at most one.

The entries it wrote stay in the cache, as dirty as before. As long as nothing else changes
the parent they agree with it; after a direct change they hide it from reads, and the next
`Write` undoes it.

## Main results

* `write_orderly_iff`: the sequence does not depend on that order exactly when at most one key
  is dirty.
* `CacheKVStore.write_fresh_iff`: the store shows, and leaves, the changes made directly to the
  parent since a `Write` exactly when they left the values of the retained keys as they were.
-/

namespace MelodiaStore

/-! ### The calls to the parent -/

/-- A call that a parent store receives. -/
inductive ParentCall
  | set (key : Bytes) (value : Slice)
  | delete (key : Bytes)
  deriving DecidableEq, Repr

/-- The key of a call. -/
def ParentCall.key : ParentCall → Bytes
  | set key _ => key
  | delete key => key

/-- A parent store that notes the calls it receives. -/
structure CallLog where
  calls : List ParentCall

instance instBasicKVStoreCallLog : BasicKVStore CallLog where
  get _ _ := .ok none
  set log key value := .ok ⟨log.calls ++ [.set key value]⟩
  delete log key := .ok ⟨log.calls ++ [.delete key]⟩

/-- The call `Write` issues for an entry of the cache. -/
def issuedCall (entry : (_ : Bytes) × CValue) : Option ParentCall :=
  if entry.2.dirty then
    some (entry.2.value.elim (.delete entry.1) fun v => .set entry.1 (some v))
  else none

/-- A call is for the key of a dirty entry. -/
theorem key_of_issuedCall {entry : (_ : Bytes) × CValue} {call : ParentCall}
    (h : issuedCall entry = some call) : call.key = entry.1 ∧ entry.2.dirty = true := by
  obtain ⟨key, value, dirty⟩ := entry
  cases dirty with
  | false => cases h
  | true =>
    obtain rfl := Option.some.inj h
    cases value <;> exact ⟨rfl, rfl⟩

open CacheKVStore (writeEntry writeCache)

/-- What an entry issues. -/
theorem run_writeEntry_log (entry : (_ : Bytes) × CValue) (log : CallLog) :
    (writeEntry entry).run log = .ok ⟨⟩ ⟨log.calls ++ (issuedCall entry).toList⟩ := by
  obtain ⟨key, value, dirty⟩ := entry
  cases dirty with
  | false => simp [writeEntry, issuedCall]
  | true => cases value <;> rfl

/-- **The calls `Write` issues**, in the order in which it visits the cache. -/
theorem run_writeCache (order : Traversal Bytes CValue) (cache : GoMap Bytes CValue) :
    (writeCache order cache).run (CallLog.mk []) =
      .ok ⟨⟩ ⟨(order.visit cache).filterMap issuedCall⟩ := by
  suffices H : ∀ (l : List ((_ : Bytes) × CValue)) (log : CallLog),
      (forM l writeEntry).run log = .ok ⟨⟩ ⟨log.calls ++ l.filterMap issuedCall⟩ from
    H (order.visit cache) ⟨[]⟩
  intro l
  induction l with
  | nil =>
    intro log
    simp
  | cons entry l ih =>
    intro log
    rw [List.forM_cons, run_bind_of_ok (run_writeEntry_log entry log), ih]
    cases h : issuedCall entry <;> simp [h]

/-- A key is dirty in a cache. -/
def DirtyKey (cache : GoMap Bytes CValue) (key : Bytes) : Prop :=
  ∃ cv, cache.lookup key = some cv ∧ cv.dirty = true

/-- There is one call for each dirty key. -/
theorem mem_keys_issued {order : Traversal Bytes CValue} {cache : GoMap Bytes CValue} {k : Bytes} :
    k ∈ ((order.visit cache).filterMap issuedCall).map ParentCall.key ↔ DirtyKey cache k := by
  rw [List.mem_map]
  constructor
  · rintro ⟨call, hcall, rfl⟩
    obtain ⟨entry, hentry, hissued⟩ := List.mem_filterMap.mp hcall
    obtain ⟨hkey, hdirty⟩ := key_of_issuedCall hissued
    exact ⟨entry.2, by rw [hkey]; exact mem_entries_iff.mp (order.mem_visit.mp hentry), hdirty⟩
  · rintro ⟨cv, hcv, hdirty⟩
    have hissued : issuedCall ⟨k, cv⟩ = some (cv.value.elim (.delete k) fun v => .set k (some v)) :=
      if_pos hdirty
    exact ⟨_,
      List.mem_filterMap.mpr ⟨⟨k, cv⟩, order.mem_visit.mpr (mem_entries_iff.mpr hcv), hissued⟩,
      (key_of_issuedCall hissued).1⟩

/-- No key is issued twice. -/
theorem nodup_keys_issued (order : Traversal Bytes CValue) (cache : GoMap Bytes CValue) :
    (((order.visit cache).filterMap issuedCall).map ParentCall.key).Nodup := by
  have hvisit := order.nodup_visit cache
  rw [List.Nodup, List.pairwise_map] at hvisit ⊢
  refine List.Pairwise.filterMap issuedCall (fun a b hab call hcall call' hcall' => ?_) hvisit
  rw [(key_of_issuedCall hcall).1, (key_of_issuedCall hcall').1]
  exact hab

/-- Whatever the order of the visit, `Write` issues one call per dirty key, in strictly
ascending order of the keys. -/
def WriteOrderly (cache : GoMap Bytes CValue) : Prop :=
  ∃ calls : List ParentCall, (calls.map ParentCall.key).Pairwise (· < ·) ∧
    (∀ k, k ∈ calls.map ParentCall.key ↔ DirtyKey cache k) ∧
    ∀ order, (writeCache order cache).run (CallLog.mk []) = .ok ⟨⟩ ⟨calls⟩

/-- A visit the other way round issues the calls the other way round. -/
theorem issued_backwards (order : Traversal Bytes CValue) (cache : GoMap Bytes CValue) :
    (order.backwards.visit cache).filterMap issuedCall =
      ((order.visit cache).filterMap issuedCall).reverse :=
  List.filterMap_reverse

/-- Two different orders of the visit issue the same calls. -/
theorem issued_perm (order order' : Traversal Bytes CValue) (cache : GoMap Bytes CValue) :
    ((order.visit cache).filterMap issuedCall).Perm ((order'.visit cache).filterMap issuedCall) :=
  ((order.perm cache).trans (order'.perm cache).symm).filterMap issuedCall

/-- With at most one dirty key there is at most one call. -/
theorem issued_of_unique {cache : GoMap Bytes CValue}
    (hone : ∀ k k', DirtyKey cache k → DirtyKey cache k' → k = k')
    (order : Traversal Bytes CValue) :
    (order.visit cache).filterMap issuedCall = [] ∨
      ∃ call, (order.visit cache).filterMap issuedCall = [call] := by
  have hnodup := nodup_keys_issued order cache
  rcases hcalls : (order.visit cache).filterMap issuedCall with _ | ⟨a, _ | ⟨b, rest⟩⟩
  · exact .inl rfl
  · exact .inr ⟨a, rfl⟩
  · have hdirty : ∀ call ∈ a :: b :: rest, DirtyKey cache call.key := by
      intro call hcall
      exact mem_keys_issued.mp (hcalls ▸ List.mem_map_of_mem hcall)
    have hkeys : a.key = b.key := hone _ _ (hdirty a (by simp)) (hdirty b (by simp))
    rw [hcalls] at hnodup
    simp [hkeys] at hnodup

/-- **The order of the write-back is determined** exactly when at most one key is dirty. -/
theorem write_orderly_iff (cache : GoMap Bytes CValue) :
    WriteOrderly cache ↔ ∀ k k', DirtyKey cache k → DirtyKey cache k' → k = k' := by
  constructor
  · rintro ⟨calls, hsorted, hmem, hrun⟩ k k' hk hk'
    have hissued : ∀ order : Traversal Bytes CValue,
        (order.visit cache).filterMap issuedCall = calls := by
      intro order
      have h := (run_writeCache order cache).symm.trans (hrun order)
      exact congrArg CallLog.calls (EStateM.Result.ok.inj h).2
    -- the calls are their own reverse, so that the keys are descending as well
    have hreverse : calls.reverse = calls := by
      have h := issued_backwards .listed cache
      rwa [hissued, hissued, eq_comm] at h
    have hdesc : (calls.map ParentCall.key).Pairwise fun a b => b < a := by
      rw [← hreverse, List.map_reverse, List.pairwise_reverse]
      exact hsorted
    have hk := (hmem k).mpr hk
    have hk' := (hmem k').mpr hk'
    rcases hkeys : calls.map ParentCall.key with _ | ⟨a, _ | ⟨b, rest⟩⟩
    · rw [hkeys] at hk
      cases hk
    · rw [hkeys, List.mem_singleton] at hk hk'
      exact hk.trans hk'.symm
    · rw [hkeys] at hsorted hdesc
      exact absurd (List.rel_of_pairwise_cons hsorted List.mem_cons_self)
        (List.rel_of_pairwise_cons hdesc List.mem_cons_self).asymm
  · intro hone
    refine ⟨(Traversal.listed.visit cache).filterMap issuedCall, ?_, fun _ => mem_keys_issued,
      fun order => ?_⟩
    · rcases issued_of_unique hone .listed with h | ⟨call, h⟩
      · rw [h]
        exact .nil
      · rw [h]
        exact List.pairwise_singleton _ _
    · have hperm := issued_perm order .listed cache
      rw [run_writeCache]
      rcases issued_of_unique hone .listed with h | ⟨call, h⟩
      · rw [h] at hperm ⊢
        rw [hperm.eq_nil]
      · rw [h] at hperm ⊢
        rw [hperm.eq_singleton]

/-- Two dirty keys: the calls come in either order. -/
theorem write_orderly_fails : ∃ store : CacheKVStore CallLog,
    (do (← (CacheKVStore.newStore (CallLog.mk [])).set [1] (some [5])).delete [2]) = .ok store ∧
      (CacheKVStore.write .listed).run store =
        .ok ⟨⟩ { store with parent := ⟨[.delete [2], .set [1] (some [5])]⟩ } ∧
      (CacheKVStore.write Traversal.listed.backwards).run store =
        .ok ⟨⟩ { store with parent := ⟨[.set [1] (some [5]), .delete [2]]⟩ } ∧
      ¬ WriteOrderly store.maps.cache := by
  refine ⟨_, rfl, rfl, rfl, ?_⟩
  rintro ⟨calls, -, -, hrun⟩
  have hlisted : calls = [.delete [2], .set [1] (some [5])] :=
    congrArg CallLog.calls (EStateM.Result.ok.inj (hrun .listed)).2.symm
  have hbackwards : calls = [.set [1] (some [5]), .delete [2]] :=
    congrArg CallLog.calls (EStateM.Result.ok.inj (hrun Traversal.listed.backwards)).2.symm
  cases hlisted.symm.trans hbackwards

/-! ### What stays in the cache -/

/-- What may happen after a `Write`: a call of the store, or a change made directly to its
parent, such as `Set`, `Delete` or the `Write` of another store over it. -/
inductive LaterCall (β : Type)
  | cache (call : CacheCall)
  | parent (change : EStateM Panic β PUnit)

/-- The call sets or deletes a key. -/
def CacheCall.Writes (key : Bytes) : CacheCall → Prop
  | .set key' value => key' = key ∧ (CacheCall.set key' value).check = .ok ()
  | .delete key' => key' = key ∧ (CacheCall.delete key').check = .ok ()
  | _ => False

namespace LaterCall

variable {β : Type}

/-- A key is set or deleted on the cache store. -/
def Writes (key : Bytes) : LaterCall β → Prop
  | cache call => call.Writes key
  | parent _ => False

/-- Perform a call. -/
def perform [KVStore β] : LaterCall β → EStateM Panic (CacheKVStore β) PUnit
  | cache call => CacheKVStore.perform call >>= fun _ => pure ⟨⟩
  | parent change => zoom CacheKVStore.parent (fun p store => { store with parent := p }) change

end LaterCall

namespace CacheKVStore

variable {β : Type} [LawfulKVStore β] {key : Bytes} {store : CacheKVStore β}

/-- **The frame of a call**: it leaves the cache alone, except at the key it writes. -/
theorem lookup_cache_perform {call : CacheCall} (hcall : ¬ call.Writes key)
    (store : CacheKVStore β) :
    (outcome (perform call) store).2.maps.cache.lookup key = store.maps.cache.lookup key := by
  cases call with
  | set key' value =>
    rw [perform]
    rcases store.set_cases key' value with ⟨e, -, hrun⟩ | ⟨hcheck, store', hrun, -, hcache, -⟩
    · rw [outcome_updating_of_error hrun]
    · rw [outcome_updating_of_ok hrun, hcache]
      exact AList.lookup_insert_ne fun h => hcall ⟨h.symm, hcheck⟩
  | delete key' =>
    rw [perform]
    rcases store.delete_cases key' with ⟨e, -, hrun⟩ | ⟨hcheck, store', hrun, -, hcache, -⟩
    · rw [outcome_updating_of_error hrun]
    · rw [outcome_updating_of_ok hrun, hcache]
      exact AList.lookup_insert_ne fun h => hcall ⟨h.symm, hcheck⟩
  | get key' | has key' => rw [perform, outcome_reading]
  | write order =>
    obtain ⟨p', hrun, -, -⟩ := store.run_write order
    rw [perform, snd_outcome_bind (fun _ => readOnly_pure _), outcome_of_ok hrun]
  | traverse order start stop ascending =>
    rw [perform, snd_outcome_bind (fun _ => readOnly_pure _), snd_outcome_traverse]
    exact congrArg _ CacheMaps.cache_dirtyItems

/-- Other calls leave the entry. -/
theorem lookup_cache_laterCall {call : LaterCall β} (hcall : ¬ call.Writes key)
    (store : CacheKVStore β) :
    (outcome call.perform store).2.maps.cache.lookup key = store.maps.cache.lookup key := by
  cases call with
  | cache call =>
    rw [LaterCall.perform, snd_outcome_bind (fun _ => readOnly_pure _)]
    exact lookup_cache_perform hcall store
  | parent change =>
    rw [LaterCall.perform, outcome, run_zoom]
    cases change.run store.parent <;> rfl

/-- The store after a `Write` and what happened since. -/
def afterWrite (store : CacheKVStore β) (order : Traversal Bytes CValue)
    (later : List (LaterCall β)) : CacheKVStore β :=
  (outcomes LaterCall.perform later (outcome (write order) store).2).2

/-- **The frame of a run**: a key that is not written is cached as it was at the `Write`. -/
theorem lookup_cache_afterWrite {order : Traversal Bytes CValue} {later : List (LaterCall β)}
    (hlater : ∀ call ∈ later, ¬ call.Writes key) :
    (store.afterWrite order later).maps.cache.lookup key = store.maps.cache.lookup key := by
  refine outcomes_invariant
    (I := fun s : CacheKVStore β => s.maps.cache.lookup key = store.maps.cache.lookup key)
    (fun call hcall s hs => ?_) ?_
  · rw [lookup_cache_laterCall (hlater call hcall), hs]
  · obtain ⟨p', hrun, -, -⟩ := store.run_write order
    rw [outcome_of_ok hrun]

/-- A read shows what the parent holds, and a further `Write` leaves it there. -/
def Fresh (store : CacheKVStore β) (key : Bytes) : Prop :=
  store.get key = BasicKVStore.get store.parent key ∧
    ∀ order, LawfulBasicKVStore.contents (outcome (write order) store).2.parent key =
      LawfulBasicKVStore.contents store.parent key

/-- A key is fresh if parent and cache agree. -/
theorem fresh_iff (hkey : ValidKey key) :
    store.Fresh key ↔ store.contents key = LawfulBasicKVStore.contents store.parent key := by
  rw [Fresh, get_of_valid hkey, LawfulBasicKVStore.get_eq store.parent key hkey, Except.ok.injEq,
    and_iff_left_iff_imp]
  intro heq order
  obtain ⟨p', hrun, hparent, -⟩ := store.run_write order
  rw [outcome_of_ok hrun, ← heq]
  exact congrFun hparent key

/-- **Reads and further writes respect the parent** at the keys not written since a `Write`
exactly when the parent still holds, at those of them that were cached, what that `Write` left
there. -/
theorem write_fresh_iff (store : CacheKVStore β) (order : Traversal Bytes CValue)
    (later : List (LaterCall β)) :
    (∀ k, ValidKey k → (∀ call ∈ later, ¬ call.Writes k) → (store.afterWrite order later).Fresh k) ↔
      ∀ k ∈ store.maps.cache, (∀ call ∈ later, ¬ call.Writes k) →
        LawfulBasicKVStore.contents (store.afterWrite order later).parent k =
          LawfulBasicKVStore.contents (outcome (write order) store).2.parent k := by
  -- a retained entry is what the `Write` left in the parent
  have hwritten : ∀ k cv, store.maps.cache.lookup k = some cv → (∀ call ∈ later, ¬ call.Writes k) →
      (store.afterWrite order later).contents k =
        LawfulBasicKVStore.contents (outcome (write order) store).2.parent k := by
    intro k cv hcv hlater
    obtain ⟨p', hrun, hparent, -⟩ := store.run_write order
    rw [outcome_of_ok hrun, contents, CacheKV.contents]
    change _ = LawfulBasicKVStore.contents p' k
    rw [hparent, contents, CacheKV.contents]
    simp only [toCacheKV, lookup_cache_afterWrite hlater, hcv, Option.map_some, Option.getD_some]
  constructor
  · intro hfresh k hk hlater
    obtain ⟨cv, hcv⟩ := mem_iff_exists_lookup.mp hk
    have hvalid := (store.wf.valid k cv hcv).1
    rw [← hwritten k cv hcv hlater]
    exact ((fresh_iff hvalid).mp (hfresh k hvalid hlater)).symm
  · intro hsame k hvalid hlater
    rw [fresh_iff hvalid]
    cases hcv : store.maps.cache.lookup k with
    | some cv =>
      rw [hwritten k cv hcv hlater]
      exact (hsame k (mem_iff_exists_lookup.mpr ⟨cv, hcv⟩) hlater).symm
    | none =>
      rw [contents, CacheKV.contents]
      simp only [toCacheKV, lookup_cache_afterWrite hlater, hcv, Option.map_none,
        Option.getD_none]

/-- Two stores over one parent: the first still shows the value it wrote after the second has
written another one, and its next `Write` brings it back. -/
theorem write_fresh_fails : ∃ store : CacheKVStore DbAdapter,
    (newStore DbAdapter.empty).set [1] (some [5]) = .ok store ∧
      ∃ later : List (LaterCall DbAdapter),
        later = [.parent (writeCache .listed (AList.singleton [1] ⟨some [6], true⟩))] ∧
        (∀ call ∈ later, ¬ call.Writes [1]) ∧
        (store.afterWrite .listed later).get [1] = .ok (some [5]) ∧
        (store.afterWrite .listed later).parent.get [1] = .ok (some [6]) ∧
        (outcome (write .listed) (store.afterWrite .listed later)).2.parent.get [1] =
          .ok (some [5]) ∧
        ¬ (store.afterWrite .listed later).Fresh [1] := by
  refine ⟨_, rfl, _, rfl, by simp [LaterCall.Writes], rfl, rfl, rfl, ?_⟩
  rintro ⟨hget, -⟩
  have hvalues : (Except.ok (some [5]) : Except Panic Slice) = .ok (some [6]) := hget
  cases hvalues

end CacheKVStore

end MelodiaStore
