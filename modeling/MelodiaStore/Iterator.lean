import MelodiaStore.MergeIterator
import MelodiaStore.Mvkv

/-!
# Iterators of the Version Indexed Store

`VersionIndexedStore.iterator` of `multiversion/mvkv.go`, with the in-memory iterator of
`multiversion/memiterator.go` and the tracker of `multiversion/trackediterator.go`. The
iterator merges the entries of the parent store with a layer of keys: those of earlier
transactions, the own writes, and what has been read. The value of such a key is what `Get`
returns when the iterator comes to it.

## Main results

* `ListStore.collectIteratorItems_iff`: when the layer over a `ListStore` holds the keys of
  the earlier transactions.
-/

namespace MelodiaStore

/-! ### Trackers -/

/-- `NewIterationTracker`. -/
def newIterationTracker (startKey endKey : Slice) (ascending : Bool) (writeset : WriteSet) :
    IterationTracker where
  startKey := startKey
  endKey := endKey
  earlyStopKey := none
  iteratedKeys := ∅
  ascending := ascending
  writeset := writeset

/-- `SetEarlyStopKey`. -/
def IterationTracker.setEarlyStopKey (item : IterationTracker) (key : Slice) :
    IterationTracker :=
  { item with earlyStopKey := key }

/-- `AddKey`. -/
def IterationTracker.addKey (item : IterationTracker) (key : Bytes) : IterationTracker :=
  { item with iteratedKeys := insert key item.iteratedKeys }.setEarlyStopKey (some key)

/-- `trackedIterator`: a merge iterator and the position of its tracker in the iterate
set. -/
structure TrackedIterator where
  iter : MergeIterator
  position : ℕ

namespace VersionIndexedStore

variable {μ : Type} [MultiVersionStore μ]

/-- `memIterator.Value`, and the read set handler of an execution. -/
def callbacks : Callbacks (Mvkv μ) where
  value := get
  updateReadSet key value := updateReadSet key (some value)

/-- The keys of the layer: the collected `items`, the written and the read keys. -/
def iteratorItems (store : VersionIndexedStore) (items : MemDB) : MemDB :=
  store.readset.keys.foldl addKey (store.writeset.keys.foldl addKey items)

/-- `iterator`. -/
def iterator (start stop : Slice) (ascending : Bool) :
    EStateM Panic (Mvkv μ) TrackedIterator := do
  let m ← MonadState.get
  let items ← ofExcept (MultiVersionStore.collectIteratorItems m.multiVersionStore
    m.store.transactionIndex)
  let memIterator ← ofExcept (((m.store.iteratorItems items).iterator start stop
    ascending).mapError .db)
  let parent ← ofExcept (MultiVersionStore.parentIterator m.multiVersionStore start stop ascending)
  let tracker := newIterationTracker start stop ascending m.store.writeset
  modifyStore fun store => { store with iterateset := store.iterateset ++ [tracker] }
  pure ⟨⟨parent, memIterator.map Prod.fst, ascending⟩, m.store.iterateset.length⟩

end VersionIndexedStore

open VersionIndexedStore (callbacks)

/-- **The creation of an iterator**: its cache goes through the keys of the layer, and a
tracker is added to the iterate set. -/
theorem run_iterator_eq_ok {μ : Type} [MultiVersionStore μ] {store : VersionIndexedStore}
    {s : μ} {start stop : Slice} {ascending : Bool} {it : TrackedIterator} {m : Mvkv μ} :
    (VersionIndexedStore.iterator start stop ascending).run ⟨store, s⟩ = .ok it m ↔
      ∃ items parent, MultiVersionStore.collectIteratorItems s store.transactionIndex = .ok items ∧
        (start ≠ some [] ∧ stop ≠ some []) ∧
        MultiVersionStore.parentIterator s start stop ascending = .ok parent ∧
        it = ⟨⟨parent, (store.iteratorItems items).keysIn start stop ascending, ascending⟩,
          store.iterateset.length⟩ ∧
        m = ⟨{ store with iterateset := store.iterateset ++
          [newIterationTracker start stop ascending store.writeset] }, s⟩ := by
  rw [VersionIndexedStore.iterator, run_bind_of_ok (EStateM.run_get _)]
  simp only [run_bind_eq_ok, run_ofExcept_eq_ok]
  constructor
  · rintro ⟨items, _, ⟨hitems, rfl⟩, mem, _, ⟨hmem, rfl⟩, parent, _, ⟨hparent, rfl⟩, ⟨⟩, _, hstore,
      hit⟩
    cases hdb : (store.iteratorItems items).iterator start stop ascending with
    | error e => rw [hdb] at hmem; cases hmem
    | ok l =>
      rw [hdb] at hmem
      obtain rfl : l = mem := Except.ok.inj hmem
      obtain ⟨hstart, hstop, rfl⟩ := MemDB.iterator_eq_ok.mp hdb
      cases hstore
      cases hit
      exact ⟨items, parent, hitems, ⟨hstart, hstop⟩, hparent, rfl, rfl⟩
  · rintro ⟨items, parent, hitems, ⟨hstart, hstop⟩, hparent, rfl, rfl⟩
    have hdb : (store.iteratorItems items).iterator start stop ascending = .ok _ :=
      MemDB.iterator_eq_ok.mpr ⟨hstart, hstop, rfl⟩
    exact ⟨items, _, ⟨hitems, rfl⟩, _, _, ⟨congrArg (Except.mapError Panic.db) hdb, rfl⟩, parent, _,
      ⟨hparent, rfl⟩, ⟨⟩, _, rfl, rfl⟩

namespace TrackedIterator

variable {μ : Type} [MultiVersionStore μ]

/-- Change the tracker of an iterator. -/
def track (it : TrackedIterator) (f : IterationTracker → IterationTracker) :
    EStateM Panic (Mvkv μ) PUnit :=
  VersionIndexedStore.modifyStore fun store =>
    { store with iterateset := store.iterateset.modify it.position f }

/-- `trackedIterator.Valid`. -/
def valid (it : TrackedIterator) : EStateM Panic (Mvkv μ) (Bool × TrackedIterator) := do
  let (valid, iter) ← it.iter.valid VersionIndexedStore.callbacks
  if valid then
    let (key, iter) ← iter.key VersionIndexedStore.callbacks
    it.track fun tracker => tracker.addKey key
    pure (true, { it with iter := iter })
  else
    it.track fun tracker => tracker.setEarlyStopKey none
    pure (false, { it with iter := iter })

/-- `trackedIterator.Key`. -/
def key (it : TrackedIterator) : EStateM Panic (Mvkv μ) (Bytes × TrackedIterator) := do
  let (key, iter) ← it.iter.key VersionIndexedStore.callbacks
  it.track fun tracker => tracker.addKey key
  pure (key, { it with iter := iter })

/-- `trackedIterator.Value`. -/
def value (it : TrackedIterator) : EStateM Panic (Mvkv μ) (Slice × TrackedIterator) := do
  let (key, iter) ← it.iter.key VersionIndexedStore.callbacks
  let (val, iter) ← iter.value VersionIndexedStore.callbacks
  it.track fun tracker => tracker.addKey key
  pure (val, { it with iter := iter })

/-- `trackedIterator.Next`. -/
def next (it : TrackedIterator) : EStateM Panic (Mvkv μ) TrackedIterator := do
  let (key, iter) ← it.iter.key VersionIndexedStore.callbacks
  it.track fun tracker => tracker.addKey key
  let iter ← iter.next VersionIndexedStore.callbacks
  pure { it with iter := iter }

/-- Step an iterator to exhaustion, as callers do: `Valid`, then `Key`, `Value` and `Next`.
The loop runs at most `fuel` rounds. -/
def drain : ℕ → TrackedIterator → EStateM Panic (Mvkv μ) (List (Bytes × Slice))
  | 0, _ => throw .outOfFuel
  | fuel + 1, it => do
    let (valid, it) ← it.valid
    if valid then
      let (key, it) ← it.key
      let (value, it) ← it.value
      let it ← it.next
      let rest ← drain fuel it
      pure ((key, value) :: rest)
    else
      pure []

/-! ### What the methods keep -/

section Frames

variable {P : Mvkv μ → Prop} (hcb : MergeIterator.Keeps callbacks P)
  (hP : ∀ m iterateset, P m → P { m with store := { m.store with iterateset := iterateset } })

include hcb

theorem ensures_value {Q : MergeIterator → Slice → Mvkv μ → Prop}
    (hQ : ∀ it v m iterateset, Q it v m →
      Q it v { m with store := { m.store with iterateset := iterateset } })
    (hparent : ∀ it e, it.side = .parent → it.parentEntry = .ok e →
      Ensures P (VersionIndexedStore.updateReadSet e.1 (some e.2)) fun _ => Q it (some e.2))
    (hcache : ∀ it k, it.side ≠ .parent → it.cacheKey = .ok k →
      Ensures P (VersionIndexedStore.get k) (Q it)) (it : TrackedIterator) :
    Ensures P it.value fun r m => it.iter.MovedFrom r.2.iter ∧ Q r.2.iter r.1 m := by
  refine (MergeIterator.ensures_key hcb it.iter).bind fun r m a m' hm hrun => ?_
  obtain ⟨⟨val, iter⟩, m₁, hvalue, hrun⟩ := run_bind_eq_ok.mp hrun
  cases hrun
  obtain ⟨hmoved, hQ₁⟩ := MergeIterator.ensures_value hcb hparent hcache r.2 hm.2 hvalue
  exact ⟨hm.1.trans hmoved, hQ _ _ _ _ hQ₁⟩

include hP

theorem ensures_valid (it : TrackedIterator) :
    Ensures P it.valid fun r m => it.iter.MovedFrom r.2.iter ∧ P m := by
  refine (MergeIterator.ensures_valid hcb it.iter).bind fun r m a m' hm hrun => ?_
  obtain ⟨valid, iter⟩ := r
  cases valid with
  | true =>
    obtain ⟨r, m₁, hkey, hrun⟩ := run_bind_eq_ok.mp hrun
    cases hrun
    obtain ⟨hmoved, hm₁⟩ := MergeIterator.ensures_key hcb iter hm.2 hkey
    exact ⟨hm.1.trans hmoved, hP _ _ hm₁⟩
  | false =>
    cases hrun
    exact ⟨hm.1, hP _ _ hm.2⟩

theorem ensures_key (it : TrackedIterator) :
    Ensures P it.key fun r m => it.iter.MovedFrom r.2.iter ∧ P m := by
  refine (MergeIterator.ensures_key hcb it.iter).bind fun r m a m' hm hrun => ?_
  cases hrun
  exact ⟨hm.1, hP _ _ hm.2⟩

/-- `Next` moves along its lists. -/
theorem ensures_next (it : TrackedIterator) :
    Ensures P it.next fun it' m => it.iter.MovedFrom it'.iter ∧ P m := by
  refine (MergeIterator.ensures_key hcb it.iter).bind fun r m it' m' hm hrun => ?_
  obtain ⟨⟨⟩, m₁, htrack, hrun⟩ := run_bind_eq_ok.mp hrun
  cases htrack
  obtain ⟨iter, m₂, hnext, hrun⟩ := run_bind_eq_ok.mp hrun
  cases hrun
  obtain ⟨hmoved, hm₂⟩ := MergeIterator.ensures_next hcb r.2 (hP m _ hm.2) hnext
  exact ⟨hm.1.trans hmoved, hm₂⟩

end Frames

/-! ### What a tracked iterator does -/

section Serves

variable {I : Set Bytes → Mvkv μ → Prop} {bad : Bytes → Prop} {f : Bytes → Slice}
  {L : Bytes → Prop} {B : Bytes × Bytes → Prop} {R : Set Bytes} {m : Mvkv μ}
  {it : TrackedIterator} {e : Bytes × Bytes} {es : List (Bytes × Bytes)}

/-- The invariant does not look at the trackers. -/
def IgnoresTrackers (I : Set Bytes → Mvkv μ → Prop) : Prop :=
  ∀ R m iterateset, I R m → I R { m with store := { m.store with iterateset := iterateset } }

omit [MultiVersionStore μ] in
theorem consults_track (hI : IgnoresTrackers I) (f : IterationTracker → IterationTracker)
    (h : I R m) : Consults I bad (it.track f) m R ∅ ⟨⟩ :=
  .of_ok rfl (by rw [Set.union_empty]; exact hI R m _ h)

/-- The tracked iterator after its merge iterator has moved to the next entry. -/
def settled (f : Bytes → Slice) (it : TrackedIterator) : TrackedIterator :=
  { it with iter := it.iter.settled f }

theorem lookups_union_settled :
    it.iter.lookups f ∪ (it.iter.settled f).lookups f = it.iter.lookups f :=
  Set.union_eq_left.mpr MergeIterator.lookups_settled

section

variable (hcb : MergeIterator.Serves callbacks I bad f L B)
  (hI : IgnoresTrackers I) (h : it.iter.Within L B)
include hcb hI h

/-- What `Valid` consults. -/
theorem consults_valid (hm : I R m) :
    Consults I bad it.valid m R (it.iter.lookups f)
      (!(it.iter.entries f).isEmpty, it.settled f) := by
  have hvalid := MergeIterator.consults_valid hcb h hm
  cases hes : it.iter.entries f with
  | nil =>
    rw [hes] at hvalid
    exact hvalid.bind_left fun _ hm₁ => (consults_track hI _ hm₁).bind_right fun _ => .pure
  | cons e es =>
    rw [hes] at hvalid
    refine (hvalid.bind fun m₁ hm₁ => ?_).congr lookups_union_settled rfl
    exact (MergeIterator.consults_key_settled hcb h hes hm₁).bind_left fun _ hm₂ =>
      (consults_track hI _ hm₂).bind_right fun _ => .pure

section

variable (hes : it.iter.entries f = e :: es) (hm : I R m)
include hes hm

/-- What `Key` consults. -/
theorem consults_key : Consults I bad it.key m R (it.iter.lookups f) (e.1, it.settled f) :=
  (MergeIterator.consults_key hcb h hes hm).bind_left fun _ hm₁ =>
    (consults_track hI _ hm₁).bind_right fun _ => .pure

/-- What `Value` consults. -/
theorem consults_value :
    Consults I bad it.value m R (it.iter.lookups f) (some e.2, it.settled f) := by
  refine ((MergeIterator.consults_key hcb h hes hm).bind fun m₁ hm₁ => ?_).congr
    lookups_union_settled rfl
  exact (MergeIterator.consults_value_settled hcb h hes hm₁).bind_left fun _ hm₂ =>
    (consults_track hI _ hm₂).bind_right fun _ => .pure

/-- What `Next` consults. -/
theorem consults_next :
    Consults I bad it.next m R (it.iter.lookups f)
      { it with iter := (it.iter.settled f).advance } := by
  refine ((MergeIterator.consults_key hcb h hes hm).bind fun m₁ hm₁ => ?_).congr
    lookups_union_settled rfl
  exact (consults_track hI _ hm₁).bind_right fun m₂ hm₂ =>
    (MergeIterator.consults_next_settled hcb h hes hm₂).bind_left fun _ => .pure

end

end

theorem settled_settled : (it.settled f).settled f = it.settled f := by
  simp only [settled, MergeIterator.settled_settled]

/-- **Stepping an iterator to exhaustion** yields the entries ahead. -/
theorem consults_drain (hcb : MergeIterator.Serves callbacks I bad f L B)
    (hI : IgnoresTrackers I) {fuel : ℕ} (it : TrackedIterator) (h : it.iter.Within L B)
    (hfuel : (it.iter.entries f).length < fuel) :
    ∃ T, ∀ R m, I R m → Consults I bad (it.drain fuel) m R T
      ((it.iter.entries f).map fun e => (e.1, some e.2)) := by
  induction fuel generalizing it with
  | zero => omega
  | succ fuel ih =>
    have hvalid : ∀ R m, I R m → Consults I bad it.valid m R _ _ := fun R m hm =>
      consults_valid hcb hI h hm
    cases hes : it.iter.entries f with
    | nil =>
      rw [hes] at hvalid
      exact ⟨_, fun R m hm => (hvalid R m hm).bind_left fun _ => .pure⟩
    | cons e es =>
      rw [hes] at hvalid hfuel
      -- the calls of one round are all made with the iterator on `e`
      have hw : (it.settled f).iter.Within L B := MergeIterator.Within.settled h
      have hes' : (it.settled f).iter.entries f = e :: es :=
        (MergeIterator.entries_settled h).trans hes
      obtain ⟨hrest, hw'⟩ := MergeIterator.entries_advance hw hes'
      obtain ⟨T, hT⟩ := ih { it.settled f with
        iter := ((it.settled f).iter.settled f).advance } hw'
        (by rw [hrest]; simpa using hfuel)
      rw [hrest] at hT
      let K := (it.settled f).iter.lookups f
      refine ⟨it.iter.lookups f ∪ (K ∪ (K ∪ (K ∪ T))), fun R m hm => ?_⟩
      refine (hvalid R m hm).bind fun m₁ hm₁ => ?_
      refine (consults_key hcb hI hw hes' hm₁).bind fun m₂ hm₂ => ?_
      rw [settled_settled]
      refine (consults_value hcb hI hw hes' hm₂).bind fun m₃ hm₃ => ?_
      rw [settled_settled]
      refine (consults_next hcb hI hw hes' hm₃).bind fun m₄ hm₄ => ?_
      exact (hT _ m₄ hm₄).bind_left fun _ => .pure

end Serves

end TrackedIterator

/-! ### The keys collected by the list store -/

namespace ListStore

variable {π : Type} {s : ListStore π} {index : ℕ}

/-- A loop that adds the same keys in every round. -/
theorem foldlM_same_keys {α : Type} (keys : List Bytes) (l : List α) (db : MemDB) :
    ∃ db', l.foldlM (fun sortedItems _ => (.ok (keys.foldl addKey sortedItems) :
        Except Panic MemDB)) db = .ok db' ∧
      ∀ k, k ∈ db'.entries ↔ k ∈ db.entries ∨ (l ≠ [] ∧ k ∈ keys ∧ k ≠ []) := by
  induction l generalizing db with
  | nil => exact ⟨db, rfl, fun k => by simp⟩
  | cons a l ih =>
    obtain ⟨db', hrun, hmem⟩ := ih (keys.foldl addKey db)
    refine ⟨db', hrun, fun k => ?_⟩
    rw [hmem, mem_foldl_addKey]
    simp only [ne_eq, reduceCtorEq, not_false_eq_true, true_and]
    tauto

/-- **What is collected**: unless the index is `0`, the keys of the index itself. -/
theorem collectIteratorItems_eq (h : index = 0 ∨ index < s.keysList.length) :
    ∃ db, s.collectIteratorItems index = .ok db ∧
      ∀ k, k ∈ db.entries ↔ index ≠ 0 ∧ k ∈ s.writesetKeys index ∧ k ≠ [] := by
  rcases h with rfl | h
  · refine ⟨MemDB.new, rfl, fun k => ?_⟩
    simp only [ne_eq, not_true_eq_false, false_and, iff_false]
    exact AList.notMem_empty k
  · obtain ⟨db, hrun, hmem⟩ :=
      foldlM_same_keys s.keysList[index].txWritesetKeys (List.range index) MemDB.new
    refine ⟨db, ?_, fun k => ?_⟩
    · rw [collectIteratorItems, List.getElem?_eq_getElem h]
      exact hrun
    · rw [hmem, writesetKeys, List.getElem?_eq_getElem h]
      simp only [ne_eq, List.range_eq_nil, Option.map_some, Option.getD_some]
      constructor
      · exact fun hk => hk.resolve_left (AList.notMem_empty k)
      · exact .inr

/-- An index past the end of the list panics. -/
theorem collectIteratorItems_error (h0 : index ≠ 0) (h : s.keysList.length ≤ index) :
    s.collectIteratorItems index = .error .indexOutOfRange := by
  obtain ⟨n, rfl⟩ := Nat.exists_eq_succ_of_ne_zero h0
  rw [collectIteratorItems, List.getElem?_eq_none h, List.range_succ_eq_map, List.foldlM_cons]
  rfl

variable [KVStore π]

/-- What the layer of an iterator is meant to hold: the collected keys are those recorded
below the index, as for a `Store` that records the same keys, and an iterator meets every
key of its range that an earlier transaction has written. -/
structure CollectsEarlier (s : ListStore π) (index : ℕ) (db : MemDB) : Prop where
  mem_iff : ∀ k, k ∈ db.entries ↔ k ≠ [] ∧ ∃ i < index, k ∈ s.writesetKeys i
  agrees : ∀ t : Store π, (∀ i, t.writesetKeys i = s.writesetKeys i) →
    ∀ k, k ∈ db.entries ↔ k ∈ (t.collectIteratorItems index).entries
  iterates : ∀ (store : VersionIndexedStore) (start stop : Slice) (ascending : Bool)
    (it : TrackedIterator) (m : Mvkv (ListStore π)), store.transactionIndex = index →
    (VersionIndexedStore.iterator start stop ascending).run (⟨store, s⟩ : Mvkv (ListStore π)) =
      .ok it m →
    ∀ i < index, ∀ k ∈ s.writesetKeys i, k ≠ [] → isKeyInDomain k start stop = true →
      k ∈ it.iter.cache

/-- **The keys collected for iterators.** They are those of the earlier transactions exactly
when the index is `0`, or there is such a transaction and its own recorded keys happen to
be the ones recorded below it. -/
theorem collectIteratorItems_iff (s : ListStore π) (index : ℕ) :
    (∃ db, s.collectIteratorItems index = .ok db ∧ s.CollectsEarlier index db) ↔
      index = 0 ∨ index < s.keysList.length ∧
        ∀ k, k ≠ [] → (k ∈ s.writesetKeys index ↔ ∃ i < index, k ∈ s.writesetKeys i) := by
  constructor
  · rintro ⟨db, hrun, hdb⟩
    by_cases h0 : index = 0
    · exact .inl h0
    · refine .inr ?_
      have hlen : index < s.keysList.length := by
        by_contra hlen
        rw [collectIteratorItems_error h0 (by omega)] at hrun
        cases hrun
      refine ⟨hlen, fun k hk => ?_⟩
      obtain ⟨db', hrun', hmem⟩ := collectIteratorItems_eq (.inr hlen)
      obtain rfl := Except.ok.inj (hrun.symm.trans hrun')
      have hiff := (hmem k).symm.trans (hdb.mem_iff k)
      simpa [h0, hk] using hiff
  · intro h
    obtain ⟨db, hrun, hmem⟩ := collectIteratorItems_eq (s := s) (h.imp_right And.left)
    have hiff : ∀ k, k ∈ db.entries ↔ k ≠ [] ∧ ∃ i < index, k ∈ s.writesetKeys i := by
      intro k
      rw [hmem]
      rcases h with rfl | ⟨hlen, hkeys⟩
      · simp
      · by_cases h0 : index = 0
        · simp [h0]
        · by_cases hk : k = []
          · simp [hk]
          · simp [h0, hk, hkeys k hk]
    refine ⟨db, hrun, hiff, fun t ht k => ?_, ?_⟩
    · rw [hiff, Store.mem_collectIteratorItems]
      simp only [ht]
    · rintro store start stop ascending it m rfl hit i hi k hk hne hdom
      obtain ⟨items, parent, hitems, -, -, rfl, -⟩ := run_iterator_eq_ok.mp hit
      obtain rfl : db = items := Except.ok.inj (hrun.symm.trans hitems)
      rw [MemDB.mem_keysIn]
      refine ⟨hdom, ?_⟩
      rw [VersionIndexedStore.iteratorItems, mem_foldl_addKey, mem_foldl_addKey]
      exact .inl (.inl ((hiff k).mpr ⟨hne, i, hi, hk⟩))

/-- **An earlier write is missing**: transaction `0` writes a key, and the range scan of
transaction `1` does not show it, although `Get` does. -/
theorem collectIteratorItems_misses_earlier_key :
    ∃ s : ListStore DbAdapter,
      (setWriteset 0 0 (AList.singleton [1] (some [7]))).run
        (((newMultiVersionListStore DbAdapter.empty 2).newKey [1] 2).newKey [1] 2) = .ok ⟨⟩ s ∧
      [1] ∈ s.writesetKeys 0 ∧
      (∃ db, s.collectIteratorItems 1 = .ok db ∧ [1] ∉ db.entries) ∧
      (∃ m, (VersionIndexedStore.iterator none none true >>= TrackedIterator.drain 1).run
          (⟨newVersionIndexedStore 1 0 ⟨1, []⟩ 2, s⟩ : Mvkv (ListStore DbAdapter)) = .ok [] m) ∧
      ∃ m, (VersionIndexedStore.get [1]).run
          (⟨newVersionIndexedStore 1 0 ⟨1, []⟩ 2, s⟩ : Mvkv (ListStore DbAdapter)) =
        .ok (some [7]) m := by
  refine exists_run_of_endsIn (p := fun s =>
      decide (s.writesetKeys 0 = [[1]] ∧ s.writesetKeys 1 = [] ∧ s.keysList.length = 2) &&
      (endsIn (VersionIndexedStore.iterator none none true >>= TrackedIterator.drain 1)
        (⟨newVersionIndexedStore 1 0 ⟨1, []⟩ 2, s⟩ : Mvkv (ListStore DbAdapter))
        (fun yielded _ => decide (yielded = [])) &&
      endsIn (VersionIndexedStore.get [1])
        (⟨newVersionIndexedStore 1 0 ⟨1, []⟩ 2, s⟩ : Mvkv (ListStore DbAdapter))
        (fun value _ => decide (value = some [7])))) (by decide +kernel) fun s _ hs => ?_
  rw [Bool.and_eq_true, Bool.and_eq_true, decide_eq_true_eq] at hs
  obtain ⟨⟨hzero, hone, hlen⟩, hscan, hget⟩ := hs
  obtain ⟨db, hdb, hmem⟩ := collectIteratorItems_eq (s := s) (.inr (by omega : 1 < _))
  obtain ⟨yielded, m, hscan, hyielded⟩ := exists_of_endsIn hscan
  obtain rfl := of_decide_eq_true hyielded
  obtain ⟨value, m', hget, hvalue⟩ := exists_of_endsIn hget
  obtain rfl := of_decide_eq_true hvalue
  refine ⟨by rw [hzero]; exact List.mem_singleton_self _, ⟨db, hdb, ?_⟩, ⟨m, hscan⟩, m', hget⟩
  rw [hmem, hone]
  simp

end ListStore

end MelodiaStore
