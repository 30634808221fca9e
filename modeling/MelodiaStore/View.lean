import MelodiaStore.Iterator

/-!
# The View of a Transaction

What a transaction at an index sees: its own writes over the versions of earlier
transactions over the parent store. The state below is fixed here, and holds no estimate
below the index.

## Main results

* `iteration_yields_view`: an iterator that is stepped to exhaustion yields exactly the keys
  of its range that `Get` finds, once, in order, with their values.
-/

namespace MelodiaStore

open LawfulBasicKVStore (contents get_eq valid_of_contents)

/-! ### The view of a transaction -/

section View

variable {π : Type} [LawfulKVStore π]

/-- The value of a key below an index: that of the latest earlier version, or else that of
the parent store. -/
def Store.below (s : Store π) (index : ℕ) (key : Bytes) : Slice :=
  match s.getLatestBeforeIndex index key with
  | .ok (some latest) => latest.value
  | _ => LawfulBasicKVStore.contents s.parentStore key

/-- The own writes over what is below an index. -/
def Store.view (s : Store π) (index : ℕ) (writeset : WriteSet) (key : Bytes) : Slice :=
  (writeset.lookup key).getD (s.below index key)

/-- The keys recorded below an index are such as `Set` and `Delete` let pass. -/
def Store.ValidBelow {π : Type} (s : Store π) (index : ℕ) : Prop :=
  ∀ i < index, ∀ k ∈ s.writesetKeys i, ValidKey k

/-- No version of a transaction below an index is an estimate. -/
def Store.NoEstimates {π : Type} (s : Store π) (index : ℕ) : Prop :=
  ∀ k, ∀ e ∈ s.versions k, e.index < index → e.isEstimate = false

variable {s s' : Store π} {index : ℕ} {ops : List StoreOp} {key v : Bytes} {totalTask : ℕ}
  {value start stop : Slice} {p : π} {ascending : Bool} {parent : List (Bytes × Bytes)}
  {cache : List Bytes}

omit [LawfulKVStore π] in
theorem Store.NoEstimates.latest (h : s.NoEstimates index) (hs : Recorded s) {e : ValueItem}
    (hlatest : s.getLatestBeforeIndex index key = .ok (some e)) : e.isEstimate = false := by
  obtain ⟨hlt, -, hslot⟩ := hs.of_getLatestBeforeIndex hlatest
  exact h key e (Store.mem_versions.mpr ⟨_, hslot⟩) hlt

omit [LawfulKVStore π] in
/-- Every lookup succeeds. -/
theorem Store.Usable.exists_latest (h : s.Usable) (index : ℕ) (key : Bytes) :
    ∃ latest, s.getLatestBeforeIndex index key = .ok latest := by
  unfold Store.getLatestBeforeIndex
  cases hl : s.multiVersionMap.lookup key with
  | none => exact ⟨none, rfl⟩
  | some item =>
    cases item with
    | nilValue => exact absurd hl (h key)
    | list m => exact ⟨_, rfl⟩
    | tree t => exact ⟨_, rfl⟩

omit [LawfulKVStore π] in
/-- In a run of a block every key is usable. -/
theorem Tracks.usable (h : Tracks totalTask ops s) (htotal : 0 < totalTask) : s.Usable :=
  fun k hk => h.fits k .nilValue hk 0 htotal

omit [LawfulKVStore π] in
theorem Tracks.validBelow (h : Tracks totalTask ops s)
    (hvalid : ∀ i < index, ∀ k ∈ currentWriteset ops i, ValidKey k) : s.ValidBelow index :=
  fun i hi k hk => hvalid i hi k (h.mem_writesetKeys.mp hk)

omit [LawfulKVStore π] in
/-- A transaction whose last operation has written values has no estimates. -/
theorem Tracks.noEstimates (h : Tracks totalTask ops s)
    (hest : ∀ i < index, ∀ op, lastOp ops i = some op → op.estimates = false) :
    s.NoEstimates index := by
  intro k e he hlt
  have hentry := h.mem_versions_iff.mp he
  unfold currentEntry at hentry
  split at hentry
  · obtain ⟨op, hop, hleaves⟩ := Option.map_eq_some_iff.mp hentry
    rw [← hleaves, StoreOp.isEstimate_leaves]
    exact hest _ hlt op hop
  · cases hentry

/-- A store in which every key can be read at an index. -/
structure Store.Quiet {π : Type} (s : Store π) (index : ℕ) : Prop where
  recorded : Recorded s
  usable : s.Usable
  noEstimates : s.NoEstimates index

/-- **What `Get` fetches** is the value below the index. -/
theorem Store.Quiet.fetch_eq_below (h : s.Quiet index) (hkey : ValidKey key) :
    s.fetch index key = .ok (s.below index key) := by
  obtain ⟨latest, hlatest⟩ := h.usable.exists_latest index key
  unfold Store.fetch Store.below
  rw [hlatest]
  cases latest with
  | none => exact get_eq s.parentStore key hkey
  | some e =>
    have hest := h.noEstimates.latest h.recorded hlatest
    simp [hest]

/-- What is fetched is the value below the index. -/
theorem Store.below_of_fetch (hkey : ValidKey key) (h : s.fetch index key = .ok value) :
    s.below index key = value := by
  unfold Store.fetch at h
  unfold Store.below
  cases hlatest : s.getLatestBeforeIndex index key with
  | error e =>
    rw [hlatest] at h
    cases h
  | ok latest =>
    rw [hlatest] at h
    cases latest with
    | none =>
      rw [get_eq s.parentStore key hkey] at h
      exact Except.ok.inj h
    | some e =>
      dsimp only at h ⊢
      split at h
      · cases h
      · exact Except.ok.inj h

/-- Two states that cannot be told apart below an index. -/
structure Store.SameBelow {π : Type} (index : ℕ) (s s' : Store π) : Prop where
  parentStore : s'.parentStore = s.parentStore
  latest : ∀ k, s'.getLatestBeforeIndex index k = s.getLatestBeforeIndex index k
  writesetKeys : ∀ i < index, ∀ k, k ∈ s'.writesetKeys i ↔ k ∈ s.writesetKeys i

omit [LawfulKVStore π] in
theorem Store.SameBelow.refl (index : ℕ) (s : Store π) : SameBelow index s s :=
  ⟨rfl, fun _ => rfl, fun _ _ _ => Iff.rfl⟩

theorem Store.SameBelow.below_eq (h : SameBelow index s s') (key : Bytes) :
    s'.below index key = s.below index key := by
  rw [Store.below, h.latest, h.parentStore, Store.below]

/-- Reads see nothing from the index on. -/
theorem Store.SameBelow.fetch_eq (h : SameBelow index s s') (key : Bytes) :
    s'.fetch index key = s.fetch index key := by
  rw [Store.fetch, h.latest, h.parentStore, Store.fetch]

/-- A key that no earlier transaction has recorded has the value of the parent store. -/
theorem Recorded.below_eq (hs : Recorded s) (h : ∀ i < index, key ∉ s.writesetKeys i) :
    s.below index key = contents s.parentStore key := by
  unfold Store.below
  split
  · next e hlatest =>
    obtain ⟨hlt, hmem, -⟩ := hs.of_getLatestBeforeIndex hlatest
    exact absurd hmem (h _ hlt)
  · rfl

/-! ### Sessions at an unchanged state -/

/-- The version indexed stores at an index after calls of `Get`, `Set` and `Delete` against
one state of the store below. -/
inductive Session (s : Store π) (index : ℕ) : VersionIndexedStore → Prop
  | new (incarnation : ℤ) (abortChannel : Channel Abort) (totalTask : ℕ) :
      Session s index (newVersionIndexedStore index incarnation abortChannel totalTask)
  | get {store store' : VersionIndexedStore} {value : Slice} (key : Bytes) :
      Session s index store →
      (VersionIndexedStore.get key).run (⟨store, s⟩ : Mvkv (Store π)) = .ok value ⟨store', s⟩ →
      Session s index store'
  | set {store store' : VersionIndexedStore} (key : Bytes) (value : Slice) :
      Session s index store →
      (VersionIndexedStore.set key value).run (⟨store, s⟩ : Mvkv (Store π)) =
        .ok ⟨⟩ ⟨store', s⟩ →
      Session s index store'
  | delete {store store' : VersionIndexedStore} (key : Bytes) :
      Session s index store →
      (VersionIndexedStore.delete key).run (⟨store, s⟩ : Mvkv (Store π)) = .ok ⟨⟩ ⟨store', s⟩ →
      Session s index store'

/-- The sets of a version indexed store agree with the state below: the keys are valid, and
the first value read for a key is the one below the index. -/
structure Agrees (s : Store π) (index : ℕ) (store : VersionIndexedStore) : Prop where
  index_eq : store.transactionIndex = index
  written : ∀ k ∈ store.writeset, ValidKey k
  read : ∀ k values, store.readset.lookup k = some values →
    ValidKey k ∧ values.head? = some (s.below index k)

theorem head?_addValue {values : List Slice} {v : Slice} (h : values.head? = some v) :
    (addValue values value).head? = some v := by
  obtain ⟨rest, rfl⟩ := List.head?_eq_some_iff.mp h
  unfold addValue
  split <;> rfl

namespace Agrees

variable {s : Store π} {index : ℕ} {store : VersionIndexedStore} {key : Bytes}

section

variable (h : Agrees s index store) {s₁ : Store π}
include h

/-- Reading the value below the index once more keeps the agreement. -/
theorem withRead (hkey : ValidKey key) :
    Agrees s index (store.withRead key (s.below index key)) where
  index_eq := h.index_eq
  written := h.written
  read k values hk := by
    simp only [VersionIndexedStore.withRead, addRead, lookup_insert_ite] at hk
    split at hk
    · next hkk =>
      subst hkk
      obtain rfl := Option.some.inj hk
      refine ⟨hkey, ?_⟩
      cases hold : store.readset.lookup k with
      | none => rfl
      | some old =>
        rw [Option.getD_some]
        exact head?_addValue (h.read k old hold).2
    · exact h.read k values hk

theorem withWrite (hkey : ValidKey key) (value : Slice) :
    Agrees s index { store with writeset := store.writeset.insert key value } where
  index_eq := h.index_eq
  written k hk := by
    rcases (AList.mem_insert _).mp hk with rfl | hk
    · exact hkey
    · exact h.written k hk
  read := h.read

theorem withIterateset (iterateset : Iterateset) :
    Agrees s index { store with iterateset := iterateset } :=
  ⟨h.index_eq, h.written, h.read⟩

/-- `Get` returns for a valid key that can be fetched. -/
theorem exists_run_get (hkey : ValidKey key) (hfetch : ∃ v, s₁.fetch index key = .ok v) :
    ∃ value store', (VersionIndexedStore.get key).run (⟨store, s₁⟩ : Mvkv (Store π)) =
      .ok value ⟨store', s₁⟩ := by
  cases hw : store.writeset.lookup key with
  | some value => exact ⟨value, store, run_get_eq_ok.mpr ⟨hkey, rfl, .inl ⟨hw, rfl⟩⟩⟩
  | none =>
    cases hr : store.readset.lookup key with
    | some values =>
      obtain ⟨rest, rfl⟩ := List.head?_eq_some_iff.mp (h.read key values hr).2
      exact ⟨_, store, run_get_eq_ok.mpr ⟨hkey, rfl, .inr (.inl ⟨hw, ⟨rest, hr⟩, rfl⟩)⟩⟩
    | none =>
      obtain ⟨v, hv⟩ := hfetch
      exact ⟨v, _, (run_get_of_absent hkey hw hr).mpr ⟨h.index_eq ▸ hv, rfl, rfl⟩⟩

/-- **What `Get` returns is the view of the transaction**, in every state that is the same
below its index. -/
theorem of_run_get {s' : Store π} (hs : s.SameBelow index s₁) {store' : VersionIndexedStore}
    {value : Slice} (hrun : (VersionIndexedStore.get key).run (⟨store, s₁⟩ : Mvkv (Store π)) =
      .ok value ⟨store', s'⟩) :
    value = s.view index store.writeset key ∧ s' = s₁ ∧ Agrees s index store' ∧
      store'.writeset = store.writeset := by
  unfold Store.view
  obtain ⟨hkey, rfl, ⟨hw, rfl⟩ | ⟨hw, ⟨values, hr⟩, rfl⟩ | ⟨hw, -, hfetch, rfl⟩⟩ :=
    run_get_eq_ok.mp hrun
  · exact ⟨by rw [hw]; rfl, rfl, h, rfl⟩
  · rw [hw]
    exact ⟨Option.some.inj (h.read key _ hr).2, rfl, h, rfl⟩
  · rw [h.index_eq, hs.fetch_eq] at hfetch
    have hbelow := Store.below_of_fetch hkey hfetch
    rw [hw, ← hbelow]
    exact ⟨rfl, rfl, h.withRead hkey, rfl⟩

/-- **`Get` returns the view of the transaction.** -/
theorem run_get (hs : s.Quiet index) (hkey : ValidKey key) :
    ∃ store', (VersionIndexedStore.get key).run (⟨store, s⟩ : Mvkv (Store π)) =
        .ok (s.view index store.writeset key) ⟨store', s⟩ ∧
      Agrees s index store' ∧ store'.writeset = store.writeset := by
  obtain ⟨value, store', hrun⟩ := h.exists_run_get hkey ⟨_, hs.fetch_eq_below hkey⟩
  obtain ⟨rfl, -, hagrees, hw⟩ := h.of_run_get (.refl index s) hrun
  exact ⟨store', hrun, hagrees, hw⟩

end

end Agrees

/-- What was read agrees with the store. -/
theorem Session.agrees {store : VersionIndexedStore} (h : Session s index store)
    (hs : s.Quiet index) : Agrees s index store := by
  induction h with
  | new _ _ _ =>
    exact ⟨rfl, fun k hk => absurd hk (AList.notMem_empty k), fun k values hk => by cases hk⟩
  | get key _ hrun ih =>
    have hkey : ValidKey key := (run_get_eq_ok.mp hrun).1
    obtain ⟨store'', hrun', hagrees, -⟩ := ih.run_get hs hkey
    cases hrun.symm.trans hrun'
    exact hagrees
  | set key value _ hrun ih | delete key _ hrun ih =>
    obtain ⟨hkey, hm⟩ := run_set_eq_ok.mp hrun
    cases hm
    exact ih.withWrite hkey _

/-! ### Iteration -/

/-- The layer at the start of an iteration. -/
theorem layered_start (hparent : KVStore.iterator p start stop ascending = .ok parent)
    (hcache : cache.Pairwise (Before ascending)) :
    Layered ascending (· ∈ cache) (· ∈ parent) parent cache where
  base_sorted := LawfulKVStore.pairwise_iterator p start stop ascending parent hparent
  keys_sorted := hcache
  mem_base _ he := he
  mem_keys _ hc := hc
  shadow _ _ hL := hL

/-- **The entries of an iteration** are the values `f` of the keys of the range, when `f` is
the parent store's outside the layer. -/
theorem mem_overlay_iterator {f : Bytes → Slice}
    (hparent : KVStore.iterator p start stop ascending = .ok parent)
    (hcache : cache.Pairwise (Before ascending))
    (hrange : ∀ c ∈ cache, c ≠ [] ∧ isKeyInDomain c start stop = true)
    (hf : ∀ k ≠ [], isKeyInDomain k start stop = true → k ∉ cache →
      f k = contents p k) {k : Bytes} :
    (k, v) ∈ overlay ascending f parent cache ↔
      (k ≠ [] ∧ isKeyInDomain k start stop = true) ∧ f k = some v := by
  rw [mem_overlay (LawfulKVStore.pairwise_iterator p start stop ascending parent hparent) hcache,
    LawfulKVStore.mem_iterator p start stop ascending parent hparent]
  constructor
  · rintro (⟨hk, hv⟩ | ⟨hk, hdom, hv⟩)
    · exact ⟨hrange k hk, hv⟩
    · have hne : k ≠ [] := (valid_of_contents p k v hv).1
      exact ⟨⟨hne, hdom⟩, (hf k hne hdom hk).trans hv⟩
  · rintro ⟨⟨hne, hdom⟩, hv⟩
    by_cases hk : k ∈ cache
    · exact .inl ⟨hk, hv⟩
    · exact .inr ⟨hk, hdom, (hf k hne hdom hk).symm.trans hv⟩

variable {s : Store π} {index : ℕ} {store : VersionIndexedStore} {k : Bytes}

omit [LawfulKVStore π] in
/-- The keys of the layer of an iterator. -/
theorem mem_iteratorItems :
    k ∈ (store.iteratorItems (s.collectIteratorItems index)).entries ↔
      k ≠ [] ∧ ((∃ i < index, k ∈ s.writesetKeys i) ∨ k ∈ store.writeset ∨
        k ∈ store.readset) := by
  rw [VersionIndexedStore.iteratorItems, mem_foldl_addKey, mem_foldl_addKey,
    Store.mem_collectIteratorItems, ← AList.mem_keys, ← AList.mem_keys]
  constructor
  · rintro ((⟨hne, hk⟩ | ⟨hk, hne⟩) | ⟨hk, hne⟩)
    · exact ⟨hne, .inl hk⟩
    · exact ⟨hne, .inr (.inl hk)⟩
    · exact ⟨hne, .inr (.inr hk)⟩
  · rintro ⟨hne, hk | hk | hk⟩
    · exact .inl (.inl ⟨hne, hk⟩)
    · exact .inl (.inr ⟨hk, hne⟩)
    · exact .inr ⟨hk, hne⟩

theorem valid_of_mem_iteratorItems (h : Agrees s index store) (hs : s.ValidBelow index)
    (hk : k ∈ (store.iteratorItems (s.collectIteratorItems index)).entries) : ValidKey k := by
  obtain ⟨-, ⟨i, hi, hk⟩ | hk | hk⟩ := mem_iteratorItems.mp hk
  · exact hs i hi k hk
  · exact h.written k hk
  · obtain ⟨values, hv⟩ := mem_iff_exists_lookup.mp hk
    exact (h.read k values hv).1

/-- Outside the layer the view is the parent store. -/
theorem view_of_not_mem (hs : Recorded s) (hne : k ≠ [])
    (hk : k ∉ (store.iteratorItems (s.collectIteratorItems index)).entries) :
    s.below index k = contents s.parentStore k ∧
      s.view index store.writeset k = contents s.parentStore k := by
  rw [mem_iteratorItems] at hk
  have hbelow : s.below index k = _ := hs.below_eq fun i hi hmem =>
    hk ⟨hne, .inl ⟨i, hi, hmem⟩⟩
  have hwritten : store.writeset.lookup k = none :=
    AList.lookup_eq_none.mpr fun hmem => hk ⟨hne, .inr (.inl hmem)⟩
  exact ⟨hbelow, by rw [Store.view, hwritten, Option.getD_none, hbelow]⟩

/-- A key that has a value in the view is valid. -/
theorem valid_of_view (h : Agrees s index store) (hs : Recorded s) (hvalid : s.ValidBelow index)
    (hv : s.view index store.writeset k = some v) : ValidKey k := by
  by_cases hw : k ∈ store.writeset
  · exact h.written k hw
  by_cases hk : ∃ i < index, k ∈ s.writesetKeys i
  · obtain ⟨i, hi, hk⟩ := hk
    exact hvalid i hi k hk
  · rw [Store.view, AList.lookup_eq_none.mpr hw, Option.getD_none,
      hs.below_eq fun i hi hmem => hk ⟨i, hi, hmem⟩] at hv
    exact valid_of_contents _ _ _ hv

/-- **The callbacks of an iterator serve the view of the transaction**, while the state below
its index and the own writes stay as they are. `S` is what is known of the store below. -/
theorem serves_execution {S : Store π → Prop} (hS : ∀ s', S s' → s.SameBelow index s')
    (writeset : WriteSet) (bad : Bytes → Prop) {L : Bytes → Prop} {B : Bytes × Bytes → Prop}
    (hL : ∀ k, L k → bad k ∨ ValidKey k ∧ ∃ v, s.fetch index k = .ok v)
    (hB : ∀ e, B e → ¬ L e.1 → ValidKey e.1 ∧ s.below index e.1 = some e.2) :
    MergeIterator.Serves (VersionIndexedStore.callbacks : Callbacks (Mvkv (Store π)))
      (fun _ m => S m.multiVersionStore ∧ Agrees s index m.store ∧ m.store.writeset = writeset)
      bad (s.view index writeset) L B where
  value := by
    rintro R ⟨store, s₁⟩ k hk ⟨hs₁, hagrees, rfl⟩
    cases hrun : (VersionIndexedStore.get k).run (⟨store, s₁⟩ : Mvkv (Store π)) with
    | ok value m =>
      obtain ⟨rfl, hs', hagrees', hw⟩ := hagrees.of_run_get (hS s₁ hs₁) hrun
      exact .of_ok hrun ⟨hs' ▸ hs₁, hagrees', hw⟩
    | error e m =>
      refine .of_error hrun ⟨k, rfl, (hL k hk).resolve_right fun hget => ?_⟩
      have hfetch : ∃ v, s₁.fetch index k = .ok v := by
        rw [(hS s₁ hs₁).fetch_eq]
        exact hget.2
      obtain ⟨value, store', hok⟩ := hagrees.exists_run_get hget.1 hfetch
      cases hok.symm.trans hrun
  update := by
    rintro R ⟨store, s₁⟩ e he hout ⟨hs₁, hagrees, rfl⟩
    obtain ⟨hkey, hbelow⟩ := hB e he hout
    refine .of_ok rfl ⟨hs₁, ?_, rfl⟩
    rw [← hbelow]
    exact hagrees.withRead hkey

/-- An iterator is made for bounds that are `nil` or non-empty. -/
theorem run_iterator (h : Agrees s index store) (ascending : Bool) (hstart : start ≠ some [])
    (hstop : stop ≠ some []) :
    ∃ parent, KVStore.iterator s.parentStore start stop ascending = .ok parent ∧
      (VersionIndexedStore.iterator start stop ascending).run (⟨store, s⟩ : Mvkv (Store π)) =
        .ok ⟨⟨parent, (store.iteratorItems (s.collectIteratorItems index)).keysIn start stop
            ascending, ascending⟩, store.iterateset.length⟩
          ⟨{ store with iterateset := store.iterateset ++
            [newIterationTracker start stop ascending store.writeset] }, s⟩ := by
  obtain ⟨parent, hparent⟩ :=
    LawfulKVStore.exists_iterator s.parentStore start stop ascending hstart hstop
  have hcollect : MultiVersionStore.collectIteratorItems s store.transactionIndex =
      .ok (s.collectIteratorItems index) := by
    rw [h.index_eq]
    rfl
  exact ⟨parent, hparent, run_iterator_eq_ok.mpr
    ⟨_, parent, hcollect, ⟨hstart, hstop⟩, hparent, rfl, rfl⟩⟩

/-- An iterator at a quiet state can be stepped to exhaustion, and yields the view of its
range in order. -/
theorem drain_yields_view (h : Agrees s index store) (hs : s.Quiet index)
    (hvalid : s.ValidBelow index) (hstart : start ≠ some []) (hstop : stop ≠ some [])
    (ascending : Bool) :
    ∃ (it : TrackedIterator) (m : Mvkv (Store π)) (es : List (Bytes × Bytes)),
      (VersionIndexedStore.iterator start stop ascending).run (⟨store, s⟩ : Mvkv (Store π)) =
        .ok it m ∧
      (∀ fuel, es.length < fuel →
        ∃ m', (it.drain fuel).run m = .ok (es.map fun e => (e.1, some e.2)) m') ∧
      es.Pairwise (fun a b => Before ascending a.1 b.1) ∧
      ∀ k v, (k, v) ∈ es ↔
        isKeyInDomain k start stop = true ∧ s.view index store.writeset k = some v := by
  obtain ⟨entries, hparent, hrun⟩ := run_iterator h ascending hstart hstop
  generalize hcache : (store.iteratorItems (s.collectIteratorItems index)).keysIn start stop
    ascending = cache at hrun
  have hsorted : cache.Pairwise (Before ascending) := hcache ▸ MemDB.pairwise_keysIn _ _ _ _
  have hmem : ∀ {c}, c ∈ cache ↔ isKeyInDomain c start stop = true ∧
      c ∈ (store.iteratorItems (s.collectIteratorItems index)).entries := by
    intro c
    rw [← hcache]
    exact MemDB.mem_keysIn
  have hout : ∀ k ≠ [], isKeyInDomain k start stop = true → k ∉ cache →
      s.below index k = contents s.parentStore k ∧
        s.view index store.writeset k = contents s.parentStore k :=
    fun k hne hdom hk => view_of_not_mem hs.recorded hne fun hin => hk (hmem.mpr ⟨hdom, hin⟩)
  have hfetch : ∀ k ∈ cache, ValidKey k ∧ ∃ v, s.fetch index k = .ok v := fun k hk =>
    have hkey := valid_of_mem_iteratorItems h hvalid (hmem.mp hk).2
    ⟨hkey, _, hs.fetch_eq_below hkey⟩
  have hserves := serves_execution (S := (· = s)) (fun s' hs' => hs' ▸ .refl index s)
    store.writeset (fun _ => False) (L := (· ∈ cache)) (B := (· ∈ entries))
    (fun k hk => .inr (hfetch k hk)) fun e he hL => by
      obtain ⟨hdom, hv⟩ := (LawfulKVStore.mem_iterator _ _ _ _ _ hparent e.1 e.2).mp he
      have hkey := valid_of_contents _ _ _ hv
      exact ⟨hkey, (hout e.1 hkey.1 hdom hL).1.trans hv⟩
  refine ⟨_, _, overlay ascending (s.view index store.writeset) entries cache, hrun,
    fun fuel hfuel => ?_, ?_, fun k v => ?_⟩
  · obtain ⟨T, hT⟩ := TrackedIterator.consults_drain hserves
      (fun R m iterateset h => ⟨h.1, h.2.1.withIterateset iterateset, h.2.2⟩)
      ⟨⟨entries, cache, ascending⟩, store.iterateset.length⟩ (layered_start hparent hsorted) hfuel
    have htracked := h.withIterateset (store.iterateset ++
      [newIterationTracker start stop ascending store.writeset])
    obtain ⟨m', hdrain, -⟩ := (hT ∅ ⟨_, s⟩ ⟨rfl, htracked, rfl⟩).exists_run fun _ _ h => h
    exact ⟨m', hdrain⟩
  · exact pairwise_overlay (LawfulKVStore.pairwise_iterator _ _ _ _ _ hparent) hsorted
  · rw [mem_overlay_iterator hparent hsorted (fun c hc => ⟨(hfetch c hc).1.1, (hmem.mp hc).1⟩)
      fun k hne hdom hk => (hout k hne hdom hk).2]
    refine ⟨fun hk => ⟨hk.1.2, hk.2⟩, fun hk => ⟨⟨?_, hk.1⟩, hk.2⟩⟩
    exact (valid_of_view h hs.recorded hvalid hk.2).1

/-- **Iteration through the view.** Take a reachable store with no estimate below an index,
and a version indexed store at that index after calls of `Get`, `Set` and `Delete` against
it. An iterator over bounds that are `nil` or non-empty can be stepped to exhaustion, in
either direction. It yields each key once, in its order, and exactly the keys of the range
for which `Get` returns a value, with that value. -/
theorem iteration_yields_view {versionList : Bool} {parent : π} {s : Store π} {index : ℕ}
    {store : VersionIndexedStore} (hs : Store.Reachable versionList parent s)
    (husable : s.Usable) (hvalid : s.ValidBelow index) (hest : s.NoEstimates index)
    (hstore : Session s index store) {start stop : Slice} (hstart : start ≠ some [])
    (hstop : stop ≠ some []) (ascending : Bool) :
    ∃ (it : TrackedIterator) (m : Mvkv (Store π)) (yielded : List (Bytes × Slice)),
      (VersionIndexedStore.iterator start stop ascending).run (⟨store, s⟩ : Mvkv (Store π)) =
        .ok it m ∧
      (∀ fuel, yielded.length < fuel → ∃ m', (it.drain fuel).run m = .ok yielded m') ∧
      yielded.Pairwise (fun a b => Before ascending a.1 b.1) ∧
      ∀ k value, (k, value) ∈ yielded ↔
        isKeyInDomain k start stop = true ∧ value ≠ none ∧
          ∃ m', (VersionIndexedStore.get k).run (⟨store, s⟩ : Mvkv (Store π)) = .ok value m' := by
  have hquiet : s.Quiet index := ⟨hs.recorded, husable, hest⟩
  have hagrees := hstore.agrees hquiet
  obtain ⟨it, m, es, hrun, hdrain, hsorted, hmem⟩ :=
    drain_yields_view hagrees hquiet hvalid hstart hstop ascending
  refine ⟨it, m, es.map fun e => (e.1, some e.2), hrun, fun fuel hfuel => ?_, ?_,
    fun k value => ?_⟩
  · exact hdrain fuel (by simpa using hfuel)
  · exact List.pairwise_map.mpr hsorted
  -- `Get` returns the view of every valid key
  rw [List.mem_map]
  constructor
  · rintro ⟨⟨k, v⟩, he, hkv⟩
    obtain ⟨rfl, rfl⟩ := Prod.mk.inj hkv
    obtain ⟨hdom, hv⟩ := (hmem k v).mp he
    obtain ⟨store', hget, -⟩ :=
      hagrees.run_get hquiet (valid_of_view hagrees hs.recorded hvalid hv)
    rw [hv] at hget
    exact ⟨hdom, by simp, _, hget⟩
  · rintro ⟨hdom, hne, m', hget⟩
    obtain ⟨v, rfl⟩ := Option.ne_none_iff_exists'.mp hne
    obtain ⟨store', hget', -⟩ := hagrees.run_get hquiet (run_get_eq_ok.mp hget).1
    have hv : s.view index store.writeset k = some v := by
      rw [hget, EStateM.Result.ok.injEq] at hget'
      exact hget'.1.symm
    exact ⟨(k, v), (hmem k v).mpr ⟨hdom, hv⟩, rfl⟩

end View

/-- A range in which an earlier transaction has deleted one key and written another, the
transaction itself has deleted a third, and a fourth is read from the parent store. -/
theorem iteration_yields_view_run :
    ∃ (p : DbAdapter) (s : Store DbAdapter) (store : VersionIndexedStore),
      p.lookup [1] = some [7] ∧ p.lookup [2] = some [8] ∧ p.lookup [4] = some [9] ∧
      (StoreOp.perform false 2 (.setWriteset 0 0 ((AList.singleton [1] none).insert [3]
        (some [5])))).run (newMultiVersionStore p) = .ok ⟨⟩ s ∧
      Session s 1 store ∧
      ∃ (it : TrackedIterator) (m : Mvkv (Store DbAdapter)) (yielded : List (Bytes × Slice)),
        (VersionIndexedStore.iterator none (some [9]) false).run
          (⟨store, s⟩ : Mvkv (Store DbAdapter)) = .ok it m ∧
        (∀ fuel, yielded.length < fuel → ∃ m', (it.drain fuel).run m = .ok yielded m') ∧
        yielded.Pairwise (fun a b => Before false a.1 b.1) ∧
        ∀ k value, (k, value) ∈ yielded ↔
          isKeyInDomain k none (some [9]) = true ∧ value ≠ none ∧
            ∃ m', (VersionIndexedStore.get k).run (⟨store, s⟩ : Mvkv (Store DbAdapter)) =
              .ok value m' := by
  refine ⟨((DbAdapter.empty.insert [1] (by decide) [7]).insert [2] (by decide) [8]).insert [4]
    (by decide) [9], _, _, rfl, rfl, rfl, and_of_run rfl fun hrun =>
    and_of_run (.get [4] (.delete [2] (.new 0 ⟨1, []⟩ 2) rfl) rfl) fun hstore => ?_⟩
  have htracks := (Tracks.new 2 _).step (by decide) (by decide) hrun
  refine iteration_yields_view (.setWriteset 0 0 _ 2 .new hrun) (htracks.usable (by decide))
    (htracks.validBelow ?_) (htracks.noEstimates ?_) hstore (by decide) (by decide) false
  · intro i hi k hk
    obtain rfl : i = 0 := by omega
    rcases (AList.mem_insert _).mp hk with rfl | hk
    · decide
    · obtain rfl : k = [1] := List.mem_singleton.mp (AList.mem_keys.mp hk)
      decide
  · intro i hi op hop
    obtain rfl : i = 0 := by omega
    obtain rfl := Option.some.inj hop
    rfl

end MelodiaStore
