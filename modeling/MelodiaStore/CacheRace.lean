import MelodiaStore.CacheStore
import MelodiaStore.Interleaving

/-!
# Setting While an Iterator is Made

`Set` of a cache store (`cachekv/store.go`) takes no lock. It stores the value in the cache and
then marks the key as unsorted. Meanwhile another client may make iterators: `dirtyItems` goes
through the marked keys, loads their values, removes the marks and puts the values in the
sorted cache. This module splits both into their atomic steps, the operations on the maps, the
tree and the mutex, and lets them interleave.

A `Set` that comes between the load and the removal of the mark loses its mark: the sorted
cache gets the old value, and nothing says that it is old.

## Main results

* `staysCurrent_iff`: the sorted cache stays current in every interleaving exactly when no key in
  the range of an iterator can be seen with two different values.
* `staysCurrent_fails`: two values of one key and an iterator over it.
-/

namespace MelodiaStore

open List (mem_append mem_append_left mem_cons_of_mem mem_cons_self mem_singleton)

/-! ### The steps of the clients -/

/-- A call of `Set` that passes its checks. -/
structure SetCall where
  key : Bytes
  value : Bytes
  validKey : ValidKey key
  validValue : ValidValue value

/-- A call of `Iterator` or `ReverseIterator`. -/
structure IteratorCall where
  start : Slice
  stop : Slice
  ascending : Bool

/-- The keys `dirtyItems` looks for. -/
def IteratorCall.Covers (call : IteratorCall) (key : Bytes) : Prop :=
  isKeyInDomain key call.start call.stop = true

/-- Where a client stands. -/
inductive CacheClient
  /-- between two calls of `Set` -/
  | setting (sets : List SetCall)
  /-- the value is in the cache, and the key is to be marked -/
  | marking (key : Bytes) (sets : List SetCall)
  /-- between two calls of `Iterator` -/
  | idle (calls : List IteratorCall)
  | locked (call : IteratorCall) (calls : List IteratorCall)
  /-- inside `Range`, with the keys still to be visited and the pairs collected so far -/
  | visiting (call : IteratorCall) (keys : List Bytes) (unsorted : List (Bytes × Slice))
      (calls : List IteratorCall)
  /-- the pairs whose marks are still to be removed, and all of them -/
  | deleting (marked unsorted : List (Bytes × Slice)) (calls : List IteratorCall)
  /-- the pairs still to be put in the tree -/
  | sorting (unsorted : List (Bytes × Slice)) (calls : List IteratorCall)
  | copying (calls : List IteratorCall)
  | unlocking (calls : List IteratorCall)

/-- What the clients share: the maps and the mutex. -/
structure SharedCache where
  maps : CacheMaps
  mtx : Bool

/-- The atomic steps of a client. -/
inductive CacheClient.Step : CacheClient × SharedCache → CacheClient × SharedCache → Prop
  | store {call : SetCall} {sets : List SetCall} {m : CacheMaps} {mtx : Bool} :
      Step (setting (call :: sets), ⟨m, mtx⟩)
        (marking call.key sets,
          ⟨{ m with cache := m.cache.insert call.key ⟨some call.value, true⟩ }, mtx⟩)
  | mark {key : Bytes} {sets : List SetCall} {m : CacheMaps} {mtx : Bool} :
      Step (marking key sets, ⟨m, mtx⟩)
        (setting sets, ⟨{ m with unsortedCache := m.unsortedCache.insert key () }, mtx⟩)
  | lock {call : IteratorCall} {calls : List IteratorCall} {m : CacheMaps} :
      Step (idle (call :: calls), ⟨m, false⟩) (locked call calls, ⟨m, true⟩)
  | skip {call : IteratorCall} {calls : List IteratorCall} {s : SharedCache}
      (h : CacheMaps.reversed call.start call.stop = true) :
      Step (locked call calls, s) (copying calls, s)
  | range {call : IteratorCall} {calls : List IteratorCall} {s : SharedCache}
      (h : CacheMaps.reversed call.start call.stop = false) (order : Traversal Bytes Unit) :
      Step (locked call calls, s)
        (visiting call ((order.visit s.maps.unsortedCache).map Sigma.fst) [] calls, s)
  | load {call : IteratorCall} {key : Bytes} {keys : List Bytes} {unsorted : List (Bytes × Slice)}
      {calls : List IteratorCall} {s : SharedCache} :
      Step (visiting call (key :: keys) unsorted calls, s)
        (visiting call keys
          (unsorted ++ (s.maps.unsortedPair call.start call.stop key).toList) calls, s)
  | visited {call : IteratorCall} {unsorted : List (Bytes × Slice)} {calls : List IteratorCall}
      {s : SharedCache} :
      Step (visiting call [] unsorted calls, s) (deleting unsorted unsorted calls, s)
  | unmark {e : Bytes × Slice} {marked unsorted : List (Bytes × Slice)}
      {calls : List IteratorCall} {m : CacheMaps} {mtx : Bool} :
      Step (deleting (e :: marked) unsorted calls, ⟨m, mtx⟩)
        (deleting marked unsorted calls,
          ⟨{ m with unsortedCache := m.unsortedCache.erase e.1 }, mtx⟩)
  | newBTree {unsorted : List (Bytes × Slice)} {calls : List IteratorCall} {m : CacheMaps}
      {mtx : Bool} :
      Step (deleting [] unsorted calls, ⟨m, mtx⟩)
        (sorting unsorted calls, ⟨{ m with sortedCache := some (m.sortedCache.getD ∅) }, mtx⟩)
  | sort {e : Bytes × Slice} {unsorted : List (Bytes × Slice)} {calls : List IteratorCall}
      {m : CacheMaps} {mtx : Bool} :
      Step (sorting (e :: unsorted) calls, ⟨m, mtx⟩)
        (sorting unsorted calls,
          ⟨{ m with sortedCache := some ((m.sortedCache.getD ∅).insert e.1 e.2) }, mtx⟩)
  | sorted {calls : List IteratorCall} {s : SharedCache} :
      Step (sorting [] calls, s) (copying calls, s)
  | copy {calls : List IteratorCall} {s : SharedCache} :
      Step (copying calls, s) (unlocking calls, s)
  | unlock {calls : List IteratorCall} {m : CacheMaps} {mtx : Bool} :
      Step (unlocking calls, ⟨m, mtx⟩) (idle calls, ⟨m, false⟩)

/-! ### Calls that are not interrupted -/

namespace CacheClient

/-- The steps of a client alone. -/
abbrev Steps : CacheClient × SharedCache → CacheClient × SharedCache → Prop :=
  Relation.ReflTransGen Step

section Alone

variable {m : CacheMaps} {mtx : Bool} {calls : List IteratorCall}

/-- The maps after some calls of `Set`. -/
def setAll (sets : List SetCall) (m : CacheMaps) : CacheMaps :=
  sets.foldl (fun m call => m.setCacheValue call.key (some call.value) true) m

/-- **Uninterrupted calls of `Set`.** -/
theorem sets_alone (sets rest : List SetCall) :
    Steps (setting (sets ++ rest), ⟨m, mtx⟩) (setting rest, ⟨setAll sets m, mtx⟩) := by
  induction sets generalizing m with
  | nil => exact .refl
  | cons call sets ih => exact .head .store (.head .mark ih)

/-- The rounds of `Range`. -/
theorem visit_alone (call : IteratorCall) (keys : List Bytes) (unsorted : List (Bytes × Slice)) :
    Steps (visiting call keys unsorted calls, ⟨m, mtx⟩)
      (visiting call [] (unsorted ++ keys.filterMap (m.unsortedPair call.start call.stop)) calls,
        ⟨m, mtx⟩) := by
  induction keys generalizing unsorted with
  | nil => rw [List.filterMap_nil, List.append_nil]
  | cons key keys ih =>
    have hlist : unsorted ++ (key :: keys).filterMap (m.unsortedPair call.start call.stop) =
        unsorted ++ (m.unsortedPair call.start call.stop key).toList ++
          keys.filterMap (m.unsortedPair call.start call.stop) := by
      rw [List.append_assoc, List.filterMap_cons]
      cases m.unsortedPair call.start call.stop key <;> rfl
    rw [hlist]
    exact .head .load (ih _)

/-- The loop of `deleteKeysFromUnsortedCache`. -/
theorem delete_alone (marked unsorted : List (Bytes × Slice)) :
    Steps (deleting marked unsorted calls, ⟨m, mtx⟩)
      (deleting [] unsorted calls, ⟨m.deleteKeysFromUnsortedCache marked, mtx⟩) := by
  induction marked generalizing m with
  | nil => exact .refl
  | cons e marked ih => exact .head .unmark ih

/-- The loop that fills the tree. -/
theorem sort_alone (unsorted : List (Bytes × Slice)) (tree : BTree)
    (hm : m.sortedCache = some tree) :
    Steps (sorting unsorted calls, ⟨m, mtx⟩)
      (sorting [] calls, ⟨{ m with
        sortedCache := some (unsorted.foldl (fun tree e => tree.insert e.1 e.2) tree) }, mtx⟩) := by
  induction unsorted generalizing m tree with
  | nil =>
    obtain ⟨cache, unsortedCache, sortedCache⟩ := m
    obtain rfl : sortedCache = some tree := hm
    exact .refl
  | cons e unsorted ih =>
    refine .head .sort ?_
    rw [hm]
    exact ih (tree.insert e.1 e.2) rfl

/-- From the collected pairs to the end of the call. -/
theorem clear_alone (call : IteratorCall) (unsorted : List (Bytes × Slice)) :
    Steps (visiting call [] unsorted calls, ⟨m, mtx⟩)
      (idle calls, ⟨m.clearUnsortedCacheSubset unsorted .stateAlreadySorted, false⟩) := by
  refine .head .visited ((delete_alone unsorted unsorted).trans (.head .newBTree ?_))
  refine (sort_alone unsorted _ rfl).trans ?_
  exact .head .sorted (.head .copy (.head .unlock .refl))

/-- From the beginning of the call to the collected pairs. -/
theorem collect_alone {call : IteratorCall} (h : CacheMaps.reversed call.start call.stop = false)
    (order : Traversal Bytes Unit) :
    Steps (idle (call :: calls), ⟨m, false⟩)
      (visiting call [] (m.unsortedPairs order call.start call.stop) calls, ⟨m, true⟩) :=
  .head .lock (.head (.range h order) (visit_alone call _ []))

/-- **An uninterrupted call of `Iterator`** is `dirtyItems`. -/
theorem iterator_alone (call : IteratorCall) (order : Traversal Bytes Unit) :
    Steps (idle (call :: calls), ⟨m, false⟩)
      (idle calls, ⟨m.dirtyItems order call.start call.stop, false⟩) := by
  cases h : CacheMaps.reversed call.start call.stop with
  | true =>
    rw [CacheMaps.dirtyItems_of_reversed h]
    exact .head .lock (.head (.skip h) (.head .copy (.head .unlock .refl)))
  | false =>
    rw [CacheMaps.dirtyItems_eq h]
    exact (collect_alone h order).trans (clear_alone call _)

/-- The maps after some calls of `Iterator`. -/
def iterateAll (calls : List IteratorCall) (m : CacheMaps) : CacheMaps :=
  calls.foldl (fun m call => m.dirtyItems .listed call.start call.stop) m

/-- Iterators that nothing disturbs. -/
theorem iterators_alone (calls rest : List IteratorCall) :
    Steps (idle (calls ++ rest), ⟨m, false⟩) (idle rest, ⟨iterateAll calls m, false⟩) := by
  induction calls generalizing m with
  | nil => exact .refl
  | cons call calls ih => exact (iterator_alone call .listed).trans ih

/-! ### What they do to one key -/

variable {k : Bytes}

theorem lookup_cache_setAll {sets : List SetCall} (h : ∀ call ∈ sets, call.key ≠ k) :
    (setAll sets m).cache.lookup k = m.cache.lookup k := by
  induction sets generalizing m with
  | nil => rfl
  | cons call sets ih =>
    exact (ih fun c hc => h c (mem_cons_of_mem call hc)).trans
      (AList.lookup_insert_ne (h call mem_cons_self).symm)

/-- The last value that is set stays. -/
theorem lookup_cache_setAll_last (sets : List SetCall) {call : SetCall} {rest : List SetCall}
    (h : ∀ c ∈ rest, c.key ≠ call.key) :
    (setAll (sets ++ call :: rest) m).cache.lookup call.key = some ⟨some call.value, true⟩ := by
  rw [setAll, List.foldl_append, List.foldl_cons]
  exact (lookup_cache_setAll h).trans (AList.lookup_insert _)

/-- A key that has been set is marked. -/
theorem mem_unsortedCache_setAll_last (sets : List SetCall) (call : SetCall) :
    call.key ∈ (setAll (sets ++ [call]) m).unsortedCache := by
  rw [setAll, List.foldl_append]
  exact (AList.mem_insert _).mpr (.inl rfl)

/-- Iterators leave a key alone that is not marked, or that none of them covers. -/
theorem iterateAll_frame (h : k ∉ m.unsortedCache ∨ ∀ call ∈ calls, ¬ call.Covers k) :
    (iterateAll calls m).cache = m.cache ∧ (iterateAll calls m).sortedValue k = m.sortedValue k ∧
      (k ∈ (iterateAll calls m).unsortedCache ↔ k ∈ m.unsortedCache) := by
  induction calls generalizing m with
  | nil => exact ⟨rfl, rfl, Iff.rfl⟩
  | cons call calls ih =>
    have hstays : ¬ m.Moves call.start call.stop k := by
      rintro ⟨hmem, hdom, -⟩
      exact h.elim (fun h => h hmem) fun h => h call mem_cons_self hdom
    obtain ⟨hsorted, hunsorted⟩ := CacheMaps.dirtyItems_frame .listed hstays
    obtain ⟨hcache', hsorted', hunsorted'⟩ := @ih (m.dirtyItems .listed call.start call.stop)
      (h.imp (fun h => mt hunsorted.mp h) fun h c hc => h c (mem_cons_of_mem call hc))
    exact ⟨hcache'.trans CacheMaps.cache_dirtyItems, hsorted'.trans hsorted,
      hunsorted'.trans hunsorted⟩

end Alone

/-! ### What a client holds -/

/-- The calls of `Set` still to be made. -/
def sets : CacheClient → List SetCall
  | setting sets => sets
  | marking _ sets => sets
  | _ => []

/-- The calls of `Iterator` whose ranges still matter. -/
def calls : CacheClient → List IteratorCall
  | idle calls => calls
  | locked call calls => call :: calls
  | visiting call _ _ calls => call :: calls
  | deleting _ _ calls => calls
  | sorting _ calls => calls
  | copying calls => calls
  | unlocking calls => calls
  | _ => []

/-- The pairs that were collected and are not in the tree yet. -/
def loaded : CacheClient → List (Bytes × Slice)
  | visiting _ _ unsorted _ => unsorted
  | deleting _ unsorted _ => unsorted
  | sorting unsorted _ => unsorted
  | _ => []

/-- Those whose marks are still to be removed. -/
def marked : CacheClient → List (Bytes × Slice)
  | deleting marked _ _ => marked
  | _ => []

/-- The keys a client still marks or sorts. -/
def pending : CacheClient → List Bytes
  | marking key _ => [key]
  | client => client.loaded.map Prod.fst

/-- Moreover those it still visits. -/
def held : CacheClient → List Bytes
  | visiting call keys unsorted calls => keys ++ (visiting call keys unsorted calls).pending
  | client => client.pending

end CacheClient

/-- A value with which `dirtyItems` may meet a key: one that is set, or the cached one if the key
is unsorted from the start. -/
def CacheMaps.Seen (m : CacheMaps) (sets : List SetCall) (k : Bytes) (v : Slice) : Prop :=
  (∃ call ∈ sets, call.key = k ∧ some call.value = v) ∨
    k ∈ m.unsortedCache ∧ ∃ cv, m.cache.lookup k = some cv ∧ cv.value = v

/-- No key in the range of an iterator can be met with two values. -/
def Unraced (m : CacheMaps) (sets : List SetCall) (calls : List IteratorCall) : Prop :=
  ∀ k, (∃ call ∈ calls, call.Covers k) → ∀ v v', m.Seen sets k v → m.Seen sets k v' → v = v'

namespace CacheClient

section Step

variable {m₀ : CacheMaps} {sets₀ : List SetCall} {calls₀ : List IteratorCall} {t t' : CacheClient}
  {s s' : SharedCache} {k : Bytes} {cv : CValue}

/-- What a client holds comes from its calls. -/
structure Sound (m₀ : CacheMaps) (sets₀ : List SetCall) (calls₀ : List IteratorCall)
    (t : CacheClient) : Prop where
  sets : ∀ call ∈ t.sets, call ∈ sets₀
  calls : ∀ call ∈ t.calls, call ∈ calls₀
  loaded : ∀ e ∈ t.loaded, (∃ call ∈ calls₀, call.Covers e.1) ∧ m₀.Seen sets₀ e.1 e.2
  marked : ∀ e ∈ t.marked, e ∈ t.loaded

/-- The cached values of the keys that are unsorted or held are values that may be met. -/
def SeesOnly (m₀ : CacheMaps) (sets₀ : List SetCall) (held : List Bytes) (m : CacheMaps) : Prop :=
  ∀ k cv, m.cache.lookup k = some cv → k ∈ m.unsortedCache ∨ k ∈ held → m₀.Seen sets₀ k cv.value

variable (hstep : Step (t, s) (t', s')) (ht : t.Sound m₀ sets₀ calls₀)
include hstep ht

/-- A step keeps a goroutine sound. -/
theorem Step.sound (hseen : SeesOnly m₀ sets₀ t.held s.maps) : t'.Sound m₀ sets₀ calls₀ := by
  cases hstep with
  | store =>
    exact ⟨fun call h => ht.sets call (mem_cons_of_mem _ h), ht.calls, ht.loaded, nofun⟩
  | skip =>
    exact ⟨ht.sets, fun call h => ht.calls call (mem_cons_of_mem _ h), ht.loaded, nofun⟩
  | load =>
    refine ⟨ht.sets, ht.calls, fun e he => ?_, nofun⟩
    rcases mem_append.mp he with he | he
    · exact ht.loaded e he
    · obtain ⟨hdom, cv, hcv, rfl⟩ :=
        CacheMaps.unsortedPair_eq_some.mp (Option.mem_toList.mp he)
      exact ⟨⟨_, ht.calls _ mem_cons_self, hdom⟩,
        hseen _ cv hcv (.inr (mem_append_left _ mem_cons_self))⟩
  | visited =>
    exact ⟨ht.sets, fun call h => ht.calls call (mem_cons_of_mem _ h), ht.loaded,
      fun _ => id⟩
  | unmark =>
    exact ⟨ht.sets, ht.calls, ht.loaded, fun e h => ht.marked e (mem_cons_of_mem _ h)⟩
  | sort =>
    exact ⟨ht.sets, ht.calls, fun e h => ht.loaded e (mem_cons_of_mem _ h), nofun⟩
  | _ => exact ⟨ht.sets, ht.calls, ht.loaded, nofun⟩

/-- A step brings a value that may be met, or leaves the cached value, and then makes no other
key unsorted or held. -/
theorem Step.seen (hcv : s'.maps.cache.lookup k = some cv) :
    m₀.Seen sets₀ k cv.value ∨ s.maps.cache.lookup k = some cv ∧
      (k ∈ s'.maps.unsortedCache ∨ k ∈ t'.held → k ∈ s.maps.unsortedCache ∨ k ∈ t.held) := by
  cases hstep with
  | @store call sets m mtx =>
    by_cases hk : k = call.key
    · subst hk
      obtain rfl : (⟨some call.value, true⟩ : CValue) = cv :=
        Option.some.inj ((AList.lookup_insert m.cache).symm.trans hcv)
      exact .inl (.inl ⟨call, ht.sets call mem_cons_self, rfl, rfl⟩)
    · refine .inr ⟨(AList.lookup_insert_ne hk).symm.trans hcv, fun h => .inl ?_⟩
      exact h.resolve_right fun hheld => hk (mem_singleton.mp hheld)
  | mark =>
    refine .inr ⟨hcv, fun h => ?_⟩
    rcases h with h | h
    · exact ((AList.mem_insert _).mp h).symm.imp_right fun hk => mem_singleton.mpr hk
    · cases h
  | range h order =>
    refine .inr ⟨hcv, fun h => .inl ?_⟩
    rcases h with h | h
    · exact h
    · rcases mem_append.mp h with h | h
      · exact ((order.perm _).map Sigma.fst).mem_iff.mp h
      · cases h
  | load =>
    refine .inr ⟨hcv, fun h => h.imp_right fun h => ?_⟩
    rcases mem_append.mp h with h | h
    · exact mem_append_left _ (mem_cons_of_mem _ h)
    · obtain ⟨e, he, rfl⟩ := List.mem_map.mp h
      rcases mem_append.mp he with he | he
      · exact List.mem_append_right _ (List.mem_map_of_mem he)
      · obtain ⟨-, cv, -, rfl⟩ := CacheMaps.unsortedPair_eq_some.mp (Option.mem_toList.mp he)
        exact mem_append_left _ mem_cons_self
  | visited => exact .inr ⟨hcv, fun h => h⟩
  | unmark =>
    exact .inr ⟨hcv, fun h => h.imp_left fun hmem => (AList.mem_erase.mp hmem).2⟩
  | sort => exact .inr ⟨hcv, fun h => h.imp_right fun hmem => mem_cons_of_mem _ hmem⟩
  | _ => exact .inr ⟨hcv, id⟩

/-- A step keeps a key marked, sorted with its cached value or pending, and makes pending a key
whose cached value it changes. -/
theorem Step.current (hone : Unraced m₀ sets₀ calls₀) (hseen : SeesOnly m₀ sets₀ t.held s.maps)
    (hcv : s'.maps.cache.lookup k = some cv) (h : s.maps.cache.lookup k = some cv →
      k ∈ s.maps.unsortedCache ∨ s.maps.sortedValue k = some cv.value ∨ k ∈ t.pending) :
    k ∈ s'.maps.unsortedCache ∨ s'.maps.sortedValue k = some cv.value ∨ k ∈ t'.pending := by
  cases hstep with
  | @store call sets m mtx =>
    by_cases hk : k = call.key
    · exact .inr (.inr (mem_singleton.mpr hk))
    · rcases h ((AList.lookup_insert_ne hk).symm.trans hcv) with h | h | h
      · exact .inl h
      · exact .inr (.inl h)
      · cases h
  | mark =>
    rcases h hcv with h | h | h
    · exact .inl ((AList.mem_insert _).mpr (.inr h))
    · exact .inr (.inl h)
    · exact .inl ((AList.mem_insert _).mpr (.inl (mem_singleton.mp h)))
  | load =>
    refine (h hcv).imp_right fun h => h.imp_right fun h => ?_
    change k ∈ List.map Prod.fst (_ ++ _)
    rw [List.map_append]
    exact mem_append_left _ h
  | @unmark e marked unsorted calls m mtx =>
    rcases h hcv with h | h | h
    · by_cases hk : k = e.1
      · subst hk
        exact .inr (.inr (List.mem_map_of_mem (ht.marked e mem_cons_self)))
      · exact .inl (AList.mem_erase.mpr ⟨hk, h⟩)
    · exact .inr (.inl h)
    · exact .inr (.inr h)
  | @newBTree unsorted calls m mtx =>
    exact (h hcv).imp_right fun h => h.imp_left (m.lookup_getD_sortedCache k).trans
  | @sort e unsorted calls m mtx =>
    by_cases hk : k = e.1
    · -- the two values may both be met, so they are the same
      subst hk
      obtain ⟨hcovers, he⟩ := ht.loaded e mem_cons_self
      have hvalue := hseen e.1 cv hcv (.inr mem_cons_self)
      refine .inr (.inl ?_)
      rw [hone e.1 hcovers cv.value e.2 hvalue he]
      exact AList.lookup_insert _
    · have hsame : (⟨m.cache, m.unsortedCache, some ((m.sortedCache.getD ∅).insert e.1 e.2)⟩ :
          CacheMaps).sortedValue k = m.sortedValue k :=
        (AList.lookup_insert_ne hk).trans (m.lookup_getD_sortedCache k)
      rcases h hcv with h | h | h
      · exact .inl h
      · exact .inr (.inl (hsame.trans h))
      · exact .inr (.inr ((List.mem_cons.mp h).resolve_left hk))
  | _ => exact h hcv

end Step

end CacheClient

/-! ### Two clients -/

/-- The client that sets and the one that makes iterators. -/
inductive Party
  | setter
  | iterator
  deriving DecidableEq

/-- Where the two clients stand. -/
def clients (setter iterator : CacheClient) : Party → CacheClient
  | .setter => setter
  | .iterator => iterator

/-- The steps of the two clients. -/
abbrev CacheRun :
    (Party → CacheClient) × SharedCache → (Party → CacheClient) × SharedCache → Prop :=
  Interleaving.Run fun _ => CacheClient.Step

/-- The calls can finish, interleaved in some way, and leave the maps `m'`. -/
def Finishes (m : CacheMaps) (sets : List SetCall) (calls : List IteratorCall) (m' : CacheMaps) :
    Prop :=
  ∃ mtx, CacheRun (clients (.setting sets) (.idle calls), ⟨m, false⟩)
    (clients (.setting []) (.idle []), ⟨m', mtx⟩)

/-- Every cached key is unsorted or has its cached value in the sorted cache. -/
def CacheMaps.Current (m : CacheMaps) : Prop :=
  ∀ k cv, m.cache.lookup k = some cv → k ∈ m.unsortedCache ∨ m.sortedValue k = some cv.value

/-- The sorted cache is current whenever all calls have finished. -/
def StaysCurrent (m : CacheMaps) (sets : List SetCall) (calls : List IteratorCall) : Prop :=
  ∀ m', Finishes m sets calls m' → m'.Current

section Invariant

variable {m₀ : CacheMaps} {sets₀ : List SetCall} {calls₀ : List IteratorCall}
  {c c' : (Party → CacheClient) × SharedCache}

/-- **The invariant**: a cached key is marked, sorted with its value, or pending at one of the
clients. -/
structure KeepsCurrent (m₀ : CacheMaps) (sets₀ : List SetCall) (calls₀ : List IteratorCall)
    (c : (Party → CacheClient) × SharedCache) : Prop where
  sound : ∀ p, (c.1 p).Sound m₀ sets₀ calls₀
  seen : ∀ p, CacheClient.SeesOnly m₀ sets₀ (c.1 p).held c.2.maps
  current : ∀ k cv, c.2.maps.cache.lookup k = some cv →
    k ∈ c.2.maps.unsortedCache ∨ c.2.maps.sortedValue k = some cv.value ∨ ∃ p, k ∈ (c.1 p).pending

/-- The start. -/
theorem KeepsCurrent.start (hm : m₀.Current) :
    KeepsCurrent m₀ sets₀ calls₀ (clients (.setting sets₀) (.idle calls₀), ⟨m₀, false⟩) := by
  refine ⟨fun p => ?_, fun p k cv hcv h => ?_, fun k cv hcv => ?_⟩
  · cases p with
    | setter => exact ⟨fun _ => id, nofun, nofun, nofun⟩
    | iterator => exact ⟨nofun, fun _ => id, nofun, nofun⟩
  · have hmem : k ∈ m₀.unsortedCache := by
      refine h.resolve_right fun hheld => ?_
      cases p <;> cases hheld
    exact .inr ⟨hmem, cv, hcv, rfl⟩
  · exact (hm k cv hcv).imp_right .inl

/-- **A step keeps the invariant.** -/
theorem KeepsCurrent.step (hone : Unraced m₀ sets₀ calls₀) (h : KeepsCurrent m₀ sets₀ calls₀ c)
    (hstep : Interleaving.Step (fun _ => CacheClient.Step) c c') :
    KeepsCurrent m₀ sets₀ calls₀ c' := by
  obtain @⟨i, locals, s, s', t, hstep⟩ := hstep
  have hseen : ∀ k cv, s'.maps.cache.lookup k = some cv → m₀.Seen sets₀ k cv.value ∨
      s.maps.cache.lookup k = some cv ∧ (k ∈ s'.maps.unsortedCache ∨ k ∈ t.held →
        k ∈ s.maps.unsortedCache ∨ k ∈ (locals i).held) :=
    fun k cv => hstep.seen (h.sound i)
  refine ⟨fun p => ?_, fun p k cv hcv hheld => ?_, fun k cv hcv => ?_⟩
  · by_cases hp : p = i
    · subst hp
      simp only [Function.update_self]
      exact hstep.sound (h.sound p) (h.seen p)
    · simp only [Function.update_of_ne hp]
      exact h.sound p
  · rcases hseen k cv hcv with hv | ⟨hold, himp⟩
    · exact hv
    · by_cases hp : p = i
      · subst hp
        simp only [Function.update_self] at hheld
        exact h.seen p k cv hold (himp hheld)
      · simp only [Function.update_of_ne hp] at hheld
        rcases hheld with hmem | hheld
        · exact h.seen i k cv hold (himp (.inl hmem))
        · exact h.seen p k cv hold (.inr hheld)
  · -- pending at the other client, or a matter of this one
    by_cases hother : ∃ p, p ≠ i ∧ k ∈ (locals p).pending
    · obtain ⟨p, hp, hpending⟩ := hother
      refine .inr (.inr ⟨p, ?_⟩)
      simp only [Function.update_of_ne hp]
      exact hpending
    · have hown := hstep.current (h.sound i) hone (h.seen i) hcv fun hold => by
        refine (h.current k cv hold).imp_right fun h => h.imp_right ?_
        rintro ⟨p, hpending⟩
        by_cases hp : p = i
        · exact hp ▸ hpending
        · exact absurd ⟨p, hp, hpending⟩ hother
      refine hown.imp_right fun h => h.imp_right fun hpending => ⟨i, ?_⟩
      simp only [Function.update_self]
      exact hpending

/-- Without a race the sorted cache stays current. -/
theorem Unraced.staysCurrent (hone : Unraced m₀ sets₀ calls₀) (hm : m₀.Current) :
    StaysCurrent m₀ sets₀ calls₀ := by
  rintro m' ⟨mtx, hrun⟩
  have hend := Interleaving.Run.invariant (fun _ _ => KeepsCurrent.step hone) (.start hm) hrun
  intro k cv hcv
  refine (hend.current k cv hcv).imp_right fun h => h.resolve_right ?_
  rintro ⟨p, hpending⟩
  cases p <;> cases hpending

end Invariant

/-! ### The race -/

section Stretches

variable {a a' b b' : CacheClient} {s s' : SharedCache}

/-- The first client moves alone. -/
theorem cacheRun_setter (h : CacheClient.Steps (a, s) (a', s')) (b : CacheClient) :
    CacheRun (clients a b, s) (clients a' b, s') := by
  have hsolo : CacheClient.Steps (clients a b .setter, s) (a', s') := h
  have hrun := Interleaving.Run.solo (fun _ => CacheClient.Step) Party.setter hsolo
  have hlocals : Function.update (clients a b) .setter a' = clients a' b := by
    funext p
    cases p <;> rfl
  rwa [hlocals] at hrun

/-- The second client moves alone. -/
theorem cacheRun_iterator (h : CacheClient.Steps (b, s) (b', s')) (a : CacheClient) :
    CacheRun (clients a b, s) (clients a b', s') := by
  have hsolo : CacheClient.Steps (clients a b .iterator, s) (b', s') := h
  have hrun := Interleaving.Run.solo (fun _ => CacheClient.Step) Party.iterator hsolo
  have hlocals : Function.update (clients a b) .iterator b' = clients a b' := by
    funext p
    cases p <;> rfl
  rwa [hlocals] at hrun

end Stretches

section Race

open CacheClient

variable {m : CacheMaps} {k : Bytes}

/-- **The race.** A key that is marked when an iterator collects it, and set to another value
before the iterator removes the mark, ends up with an old value in the sorted cache. -/
theorem exists_stale {pre : List IteratorCall} (post : List IteratorCall) {call : IteratorCall}
    {A C : List SetCall} (B : List SetCall) {d : SetCall} {cv : CValue} (hcall : call.Covers d.key)
    (hmark : d.key ∈ (setAll A (iterateAll pre m)).unsortedCache)
    (hcv : (setAll A (iterateAll pre m)).cache.lookup d.key = some cv)
    (hC : ∀ c ∈ C, c.key ≠ d.key) (hne : cv.value ≠ some d.value) :
    ∃ m', Finishes m (A ++ (B ++ d :: C)) (pre ++ call :: post) m' ∧ ¬ m'.Current := by
  have hrange : CacheMaps.reversed call.start call.stop = false := by
    by_contra h
    have hout := CacheMaps.isKeyInDomain_of_reversed (Bool.eq_true_of_not_eq_false h) d.key
    exact Bool.false_ne_true (hout.symm.trans hcall)
  obtain ⟨m₁, hm₁⟩ : ∃ m₁, m₁ = setAll A (iterateAll pre m) := ⟨_, rfl⟩
  rw [← hm₁] at hmark hcv
  have hbefore : CacheRun
      (clients (setting (A ++ (B ++ d :: C))) (idle (pre ++ call :: post)), ⟨m, false⟩)
      (clients (setting (B ++ d :: C)) (idle (call :: post)), ⟨m₁, false⟩) :=
    (cacheRun_iterator (iterators_alone pre _) _).trans (hm₁ ▸ cacheRun_setter (sets_alone A _) _)
  -- the other client sets all that is left while the pairs are collected but not cleared
  obtain ⟨m₂, hm₂⟩ : ∃ m₂, m₂ = setAll (B ++ d :: C) m₁ := ⟨_, rfl⟩
  have hduring : CacheRun (clients (setting (B ++ d :: C)) (idle (call :: post)), ⟨m₁, false⟩)
      (clients (setting []) (visiting call [] (m₁.unsortedPairs .listed call.start call.stop) post),
        ⟨m₂, true⟩) := by
    refine (cacheRun_iterator (collect_alone hrange .listed) _).trans (hm₂ ▸ cacheRun_setter ?_ _)
    simpa using sets_alone (B ++ d :: C) []
  obtain ⟨m₃, hm₃⟩ : ∃ m₃, m₃ = m₂.clearUnsortedCacheSubset
    (m₁.unsortedPairs .listed call.start call.stop) .stateAlreadySorted := ⟨_, rfl⟩
  have hafter : CacheRun
      (clients (setting []) (visiting call [] (m₁.unsortedPairs .listed call.start call.stop) post),
        ⟨m₂, true⟩) (clients (setting []) (idle []), ⟨iterateAll post m₃, false⟩) := by
    refine (cacheRun_iterator (hm₃ ▸ clear_alone call _) _).trans (cacheRun_iterator ?_ _)
    simpa using iterators_alone post []
  refine ⟨iterateAll post m₃, ⟨false, hbefore.trans (hduring.trans hafter)⟩, fun hcurrent => ?_⟩
  have hmoves : m₁.Moves call.start call.stop d.key :=
    ⟨hmark, hcall, mem_iff_exists_lookup.mpr ⟨cv, hcv⟩⟩
  have hunmarked : d.key ∉ m₃.unsortedCache := by
    rw [hm₃, CacheMaps.mem_unsortedCache_clear]
    exact fun h => h.2 hmoves
  obtain ⟨hcache, hsorted, hunsorted⟩ := @iterateAll_frame m₃ post d.key (.inl hunmarked)
  have hlast : (iterateAll post m₃).cache.lookup d.key = some ⟨some d.value, true⟩ := by
    rw [hcache, hm₃]
    exact hm₂ ▸ lookup_cache_setAll_last B hC
  rcases hcurrent d.key _ hlast with h | h
  · exact hunmarked (hunsorted.mp h)
  · rw [hsorted, hm₃, CacheMaps.sortedValue_clear_of_moves m₂ .listed hmoves hcv] at h
    exact hne (Option.some.inj h)

/-- The first call that covers a key. -/
theorem exists_first_covering {calls : List IteratorCall} (h : ∃ call ∈ calls, call.Covers k) :
    ∃ pre call post, calls = pre ++ call :: post ∧ call.Covers k ∧ ∀ c ∈ pre, ¬ c.Covers k := by
  obtain ⟨call, hfind⟩ := Option.isSome_iff_exists.mp (List.find?_isSome.mpr h)
  obtain ⟨hcall, pre, post, rfl, hpre⟩ := List.find?_eq_some_iff_append.mp hfind
  refine ⟨pre, call, post, rfl, hcall, fun c hc hcovers => ?_⟩
  have hnot := hpre c hc
  rw [show isKeyInDomain k c.start c.stop = true from hcovers] at hnot
  cases hnot

/-- The last time a key is set. -/
theorem exists_last_set {sets : List SetCall} (h : ∃ call ∈ sets, call.key = k) :
    ∃ A d C, sets = A ++ d :: C ∧ d.key = k ∧ ∀ c ∈ C, c.key ≠ k := by
  induction sets with
  | nil =>
    obtain ⟨_, hcall, -⟩ := h
    cases hcall
  | cons e sets ih =>
    by_cases hlater : ∃ call ∈ sets, call.key = k
    · obtain ⟨A, d, C, rfl, hd, hC⟩ := ih hlater
      exact ⟨e :: A, d, C, rfl, hd, hC⟩
    · obtain ⟨call, hcall, hk⟩ := h
      rcases List.mem_cons.mp hcall with rfl | hcall
      · exact ⟨[], call, sets, rfl, hk, fun c hc hck => hlater ⟨c, hc, hck⟩⟩
      · exact absurd ⟨call, hcall, hk⟩ hlater

/-- **Setting and iterating at the same time** leaves the sorted cache current, whatever the
interleaving, exactly when no key in the range of an iterator can be met with two values. -/
theorem staysCurrent_iff {β : Type} (store : CacheKVStore β) (sets : List SetCall)
    (calls : List IteratorCall) :
    StaysCurrent store.maps sets calls ↔ Unraced store.maps sets calls := by
  refine ⟨fun hstays k hcovers v v' hv hv' => ?_, fun h => h.staysCurrent store.wf.current⟩
  by_contra hne
  obtain ⟨pre, call, post, rfl, hcall, hpre⟩ := exists_first_covering hcovers
  obtain ⟨hcache, -, hunsorted⟩ := @iterateAll_frame store.maps pre k (.inr hpre)
  -- the key is set, since otherwise it can only be met with its first value
  have hset : ∃ c ∈ sets, c.key = k := by
    rcases hv with ⟨c, hc, hk, -⟩ | ⟨-, cv, hcv, rfl⟩
    · exact ⟨c, hc, hk⟩
    · rcases hv' with ⟨c, hc, hk, -⟩ | ⟨-, cv', hcv', rfl⟩
      · exact ⟨c, hc, hk⟩
      · rw [Option.some.inj (hcv.symm.trans hcv')] at hne
        exact absurd rfl hne
  obtain ⟨A, d, C, rfl, rfl, hC⟩ := exists_last_set hset
  obtain ⟨w, hw, hwd⟩ : ∃ w, store.maps.Seen (A ++ d :: C) d.key w ∧ w ≠ some d.value := by
    by_cases hvd : v = some d.value
    · exact ⟨v', hv', fun h => hne (hvd.trans h.symm)⟩
    · exact ⟨v, hv, hvd⟩
  rcases hw with ⟨e, he, hed, rfl⟩ | ⟨hmark, cv, hcv, rfl⟩
  · -- it is met after an earlier call of `Set`
    have heA : e ∈ A := by
      rcases List.mem_append.mp he with he | he
      · exact he
      · rcases List.mem_cons.mp he with rfl | he
        · exact absurd rfl hwd
        · exact absurd hed (hC e he)
    obtain ⟨A₁, A₂, rfl⟩ := List.append_of_mem heA
    have hmark := mem_unsortedCache_setAll_last (m := iterateAll pre store.maps) A₁ e
    have hcv : (setAll (A₁ ++ [e]) (iterateAll pre store.maps)).cache.lookup e.key =
        some ⟨some e.value, true⟩ :=
      lookup_cache_setAll_last A₁ (by simp)
    rw [hed] at hmark hcv
    obtain ⟨m', hfinishes, hstale⟩ := exists_stale post A₂ hcall hmark hcv hC hwd
    refine hstale (hstays m' ?_)
    simpa using hfinishes
  · -- it is met before the calls of `Set`
    obtain ⟨m', hfinishes, hstale⟩ := exists_stale (A := []) post A hcall (hunsorted.mpr hmark)
      ((congrArg _ hcache).trans hcv) hC hwd
    exact hstale (hstays m' hfinishes)

/-- A key is set to `[5]` and then to `[6]`, and an iterator that collected the first value
clears the mark of the second. -/
theorem staysCurrent_fails : ∃ sets : List SetCall,
    sets.map (fun call => (call.key, call.value)) = [([1], [5]), ([1], [6])] ∧
      ∃ m', Finishes (CacheKVStore.newStore DbAdapter.empty).maps sets [⟨none, none, true⟩] m' ∧
        m'.cache.lookup [1] = some ⟨some [6], true⟩ ∧ m'.unsortedCache.lookup [1] = none ∧
        m'.sortedValue [1] = some (some [5]) ∧ ¬ m'.Current := by
  refine ⟨[⟨[1], [5], by decide, by decide⟩, ⟨[1], [6], by decide, by decide⟩], rfl, _, ⟨false,
    (cacheRun_setter (sets_alone [_] [_]) _).trans
      ((cacheRun_iterator (collect_alone rfl .listed) _).trans
      ((cacheRun_setter (sets_alone [_] []) _).trans (cacheRun_iterator (clear_alone _ _) _)))⟩,
    rfl, rfl, rfl, fun hcurrent => ?_⟩
  rcases hcurrent [1] ⟨some [6], true⟩ rfl with h | h
  · exact AList.lookup_eq_none.mp rfl h
  · cases h

end Race

end MelodiaStore
