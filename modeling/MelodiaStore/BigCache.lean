import MelodiaStore.InterBlockCache

/-!
# The Two Inter-Block Caches

`GetStoreCache` makes one of two caches, as an environment variable says: the
`CommitKVStoreCache` of `cache/cache.go`, or the `CommitKVStoreBigCache` of
`cache/big_cache.go`. Both are to answer as the store below them. The second one has its cache
commented out and reads the store, except for three keys, for which its `Get` returns `nil`
whatever the store holds.

## Main results

* `interchangeable_iff`: the two caches answer a sequence of calls alike exactly when none of its
  `Get` calls is of one of the three keys while the store has it.
* `interchangeable_fails`: one of the three keys is set and read.
-/

namespace MelodiaStore

/-! ### The calls -/

/-- A call of an inter-block cache, or an eviction. -/
inductive InterBlockCall
  | get (key : Bytes)
  | set (key : Bytes) (value : Slice)
  | delete (key : Bytes)
  | clearCache
  | evict (key : Bytes)

/-- What a call returns. -/
inductive InterBlockAnswer
  | done
  | value (value : Slice)

variable {σ : Type}

/-- The calls on the store below, with the checks of the caches. -/
def performStore [BasicKVStore σ] : InterBlockCall → EStateM Panic σ InterBlockAnswer
  | .get key => reading fun store => do
    assertValidKey key
    let value ← BasicKVStore.get store key
    return .value value
  | .set key value => updating (fun store => do
    assertValidKey key
    assertValidValue value
    BasicKVStore.set store key value) .done
  | .delete key => updating (BasicKVStore.delete · key) .done
  | .clearCache => pure .done
  | .evict _ => pure .done

namespace CommitKVStoreCache

/-- The calls on the first cache. -/
def performCached [BasicKVStore σ] :
    InterBlockCall → EStateM Panic (CommitKVStoreCache σ) InterBlockAnswer
  | .get key => do
    let value ← get key
    return .value value
  | .set key value => do
    set key value
    return .done
  | .delete key => do
    delete key
    return .done
  | .clearCache => do
    clearCache
    return .done
  | .evict key => do
    modify fun ckv => { ckv with cache := ckv.cache.erase key }
    return .done

end CommitKVStoreCache

/-! ### The second cache -/

/-- `CommitKVStoreBigCache`. Its cache is made and cleared, and nothing else; the mutex, which
only `Delete` takes, makes no difference to calls that come one after the other. -/
structure CommitKVStoreBigCache (σ : Type) where
  store : σ

/-- The keys for which `Get` of the second cache returns `nil`. -/
def Hidden (key : Bytes) : Prop :=
  encodeToString key = ascii "0214dc6f17bbec824fff8f86587966b2047db6ab73677374616b65" ∨
    encodeToString key = ascii "0214f1829676db577682e944fc3493d451b67ff3e29f7374616b65" ∨
      encodeToString key = ascii "0214603871c2ddd41c26ee77495e2e31e6de7f9957e0657468"

instance instDecidableHidden (key : Bytes) : Decidable (Hidden key) :=
  inferInstanceAs (Decidable (_ ∨ _ ∨ _))

namespace CommitKVStoreBigCache

/-- `NewCommitKVStoreBigCache`. -/
def newCommitKVStoreBigCache (store : σ) : CommitKVStoreBigCache σ := ⟨store⟩

variable [BasicKVStore σ]

/-- `CommitKVStoreBigCache.Get`. -/
def get (ckv : CommitKVStoreBigCache σ) (key : Bytes) : Except Panic Slice := do
  assertValidKey key
  if Hidden key then
    return none
  BasicKVStore.get ckv.store key

/-- `CommitKVStoreBigCache.Set`. -/
def set (ckv : CommitKVStoreBigCache σ) (key : Bytes) (value : Slice) :
    Except Panic (CommitKVStoreBigCache σ) := do
  assertValidKey key
  assertValidValue value
  let store ← BasicKVStore.set ckv.store key value
  return { ckv with store }

/-- `CommitKVStoreBigCache.Delete`. -/
def delete (ckv : CommitKVStoreBigCache σ) (key : Bytes) :
    Except Panic (CommitKVStoreBigCache σ) := do
  let store ← BasicKVStore.delete ckv.store key
  return { ckv with store }

/-- The calls on the second cache, which evicts nothing. -/
def performBig : InterBlockCall → EStateM Panic (CommitKVStoreBigCache σ) InterBlockAnswer
  | .get key => reading fun ckv => (ckv.get key).map .value
  | .set key value => updating (CommitKVStoreBigCache.set · key value) .done
  | .delete key => updating (CommitKVStoreBigCache.delete · key) .done
  | .clearCache => pure .done
  | .evict _ => pure .done

end CommitKVStoreBigCache

/-! ### The first cache answers as the store -/

section Cached

open LawfulBasicKVStore (contents)

variable [LawfulBasicKVStore σ] {calls : List InterBlockCall} {i : ℕ} {key : Bytes}

namespace CommitKVStoreCache

/-- The cache is in front of the store, and has its values. -/
structure InFrontOf (ckv : CommitKVStoreCache σ) (store : σ) : Prop where
  store_eq : ckv.store = store
  coherent : ckv.Coherent

variable {ckv : CommitKVStoreCache σ} {store : σ}

theorem inFrontOf_new (store : σ) : (newCommitKVStoreCache store).InFrontOf store :=
  ⟨rfl, fun _ _ h => by cases h⟩

/-- Entries that go do no harm. -/
theorem InFrontOf.shrink (h : ckv.InFrontOf store) {cache : GoMap Bytes Slice}
    (hcache : ∀ k value, cache.lookup k = some value → ckv.cache.lookup k = some value) :
    InFrontOf { ckv with cache } store :=
  ⟨h.store_eq, fun k value hk => h.coherent k value (hcache k value hk)⟩

/-- A `Get` through the cache. -/
theorem InFrontOf.get (h : ckv.InFrontOf store) (key : Bytes) :
    SameOutcome InFrontOf (performCached (.get key)) ckv (performStore (.get key)) store := by
  obtain ⟨rfl, hcoherent⟩ := h
  rw [SameOutcome, performCached, performStore, outcome_bind_pure, outcome_reading]
  cases hkey : assertValidKey key with
  | error e =>
    rw [outcome, CommitKVStoreCache.get, hkey]
    exact ⟨rfl, rfl, hcoherent⟩
  | ok _ =>
    have hvalid := validKey_of_assertValidKey hkey
    have hread := LawfulBasicKVStore.get_eq ckv.store key hvalid
    refine ⟨?_, ?_⟩
    · rw [hcoherent.get hvalid, hread]
      rfl
    · rw [outcome, CommitClient.run_get_of_valid hkey]
      cases hlookup : ckv.cache.lookup key with
      | some value => exact ⟨rfl, hcoherent⟩
      | none =>
        rw [hread]
        refine ⟨rfl, fun k value hk => ?_⟩
        simp only [lookup_insert_ite] at hk
        split at hk
        · next heq => rw [heq]; exact (Option.some.inj hk).symm
        · exact hcoherent k value hk

/-- What a write answers. -/
theorem fst_outcome_writeThrough (w : CommitWrite) (ckv : CommitKVStoreCache σ) :
    (outcome (writeThrough w) ckv).1 = (do w.check; w.onStore ckv.store).map fun _ => ⟨⟩ := by
  rw [writeThrough, CommitClient.outcome_withLock]
  cases hcheck : w.check with
  | error e => rfl
  | ok _ =>
    have hzoom := outcome_zoom CommitKVStoreCache.store
      (fun (store : σ) (ckv : CommitKVStoreCache σ) => { ckv with store })
      (updateStore (w.onStore ·)) ⟨ckv.store, w.onCache ckv.cache, true⟩
    refine (congrArg Prod.fst hzoom).trans ?_
    simp only [outcome, updateStore, EStateM.run, bind, Except.bind]
    cases w.onStore ckv.store <;> rfl

/-- A write of the store below, with the checks. -/
def performWrite (w : CommitWrite) : EStateM Panic σ InterBlockAnswer :=
  updating (fun store => do w.check; w.onStore store) .done

/-- A write to the store alone. -/
theorem outcome_performWrite (w : CommitWrite) (store : σ) :
    outcome (performWrite w) store =
      ((do w.check; w.onStore store).map fun _ => .done, w.effect store) := by
  rw [performWrite, CommitWrite.effect, CommitWrite.storeAfter]
  cases hcheck : w.check with
  | error e => exact outcome_updating_of_error rfl
  | ok _ =>
    cases hstore : w.onStore store with
    | error e => exact outcome_updating_of_error hstore
    | ok store' => exact outcome_updating_of_ok hstore

/-- A write through the cache. -/
theorem InFrontOf.write [LawfulDelete σ] (h : ckv.InFrontOf store) (w : CommitWrite) :
    SameOutcome InFrontOf (do writeThrough w; return .done) ckv (performWrite w) store := by
  obtain ⟨rfl, hcoherent⟩ := h
  rw [SameOutcome, outcome_bind_pure, outcome_performWrite, fst_outcome_writeThrough,
    CommitClient.snd_outcome_writeThrough, CommitWrite.effect]
  refine ⟨?_, ?_⟩
  · cases (do w.check; w.onStore ckv.store : Except Panic σ) <;> rfl
  · cases hcheck : w.check with
    | error e => exact ⟨rfl, hcoherent⟩
    | ok _ =>
      refine ⟨rfl, fun k value hk => ?_⟩
      rw [w.contents_storeAfter hcheck]
      rcases CommitWrite.lookup_onCache hk with ⟨hkey, hvalue⟩ | ⟨hkey, hlookup⟩
      · rw [if_pos hkey, hvalue]
      · rw [if_neg hkey]
        exact hcoherent k value hlookup

/-- **Every call** of the first cache is answered as by the store. -/
theorem InFrontOf.perform [LawfulDelete σ] (call : InterBlockCall) (h : ckv.InFrontOf store) :
    SameOutcome InFrontOf (performCached call) ckv (performStore call) store := by
  cases call with
  | get key => exact h.get key
  | set key value =>
    have hchecks : performStore (.set key value) =
        (performWrite (.set key value) : EStateM Panic σ InterBlockAnswer) := by
      simp only [performStore, performWrite, CommitWrite.check, CommitWrite.onStore, bind_assoc]
    rw [hchecks]
    exact h.write (.set key value)
  | delete key => exact h.write (.delete key)
  | clearCache => exact ⟨rfl, h.shrink fun _ _ hk => by cases hk⟩
  | evict key =>
    refine ⟨rfl, h.shrink fun k value hk => ?_⟩
    rw [lookup_erase_ite] at hk
    split at hk
    · cases hk
    · exact hk

/-- **The first cache** answers every sequence of calls as the store below does. -/
theorem outcomes_cached [LawfulDelete σ] (calls : List InterBlockCall) (store : σ) :
    (outcomes performCached calls (newCommitKVStoreCache store)).1 =
      (outcomes performStore calls store).1 :=
  (outcomes_eq (fun call _ _ h => h.perform call) calls (inFrontOf_new store)).1

end CommitKVStoreCache

/-! ### The second cache hides three keys -/

namespace CommitKVStoreBigCache

omit [LawfulBasicKVStore σ] in
/-- The store under the cache is updated alike. -/
theorem snd_outcome_updating {f : CommitKVStoreBigCache σ → Except Panic (CommitKVStoreBigCache σ)}
    {g : σ → Except Panic σ} {a : InterBlockAnswer} {ckv : CommitKVStoreBigCache σ}
    (h : f ckv = (g ckv.store).map fun store => { ckv with store }) :
    (outcome (updating f a) ckv).2.store = (outcome (updating g a) ckv.store).2 := by
  cases hg : g ckv.store with
  | error e =>
    rw [hg] at h
    rw [outcome_updating_of_error h, outcome_updating_of_error hg]
  | ok store =>
    rw [hg] at h
    rw [outcome_updating_of_ok h, outcome_updating_of_ok hg]

/-- The store below the second cache is the store. -/
theorem snd_outcome_performBig (call : InterBlockCall) (ckv : CommitKVStoreBigCache σ) :
    (outcome (performBig call) ckv).2.store = (outcome (performStore call) ckv.store).2 := by
  cases call with
  | get key => rw [performBig, performStore, outcome_reading, outcome_reading]
  | set key value =>
    refine snd_outcome_updating ?_
    simp only [CommitKVStoreBigCache.set, Except.map, bind, Except.bind]
    cases assertValidKey key with
    | error e => rfl
    | ok _ =>
      cases assertValidValue value with
      | error e => rfl
      | ok _ => cases BasicKVStore.set ckv.store key value <;> rfl
  | delete key =>
    refine snd_outcome_updating ?_
    simp only [CommitKVStoreBigCache.delete, Except.map, bind, Except.bind]
    cases BasicKVStore.delete ckv.store key <;> rfl
  | clearCache => rfl
  | evict key => rfl

/-- The store after any calls. -/
theorem snd_outcomes_performBig (calls : List InterBlockCall) (ckv : CommitKVStoreBigCache σ) :
    (outcomes performBig calls ckv).2.store = (outcomes performStore calls ckv.store).2 := by
  induction calls generalizing ckv with
  | nil => rfl
  | cons call calls ih =>
    rw [outcomes, outcomes, ih, snd_outcome_performBig]

/-- **What `Get` answers.** -/
theorem get_of_valid {key : Bytes} (hkey : ValidKey key) (ckv : CommitKVStoreBigCache σ) :
    ckv.get key = .ok (if Hidden key then none else contents ckv.store key) := by
  rw [CommitKVStoreBigCache.get, assertValidKey_eq_ok.mpr hkey]
  simp only [bind, Except.bind]
  split
  · rfl
  · exact LawfulBasicKVStore.get_eq ckv.store key hkey

end CommitKVStoreBigCache

/-- What the store below holds after the first calls of a sequence. -/
def currentContents (store : σ) (calls : List InterBlockCall) (i : ℕ) : Bytes → Slice :=
  contents (outcomes performStore (calls.take i) store).2

/-- Both caches return from each `Get` what the store has for the key at that time. -/
def Interchangeable (store : σ) (calls : List InterBlockCall) : Prop :=
  ∀ (i : ℕ) (key : Bytes), calls[i]? = some (.get key) → ValidKey key →
    (outcomes CommitKVStoreCache.performCached calls (.newCommitKVStoreCache store)).1[i]? =
        some (.ok (.value (currentContents store calls i key))) ∧
      (outcomes CommitKVStoreBigCache.performBig calls (.newCommitKVStoreBigCache store)).1[i]? =
        some (.ok (.value (currentContents store calls i key)))

/-- What the first cache returns from a `Get`. -/
theorem getElem?_performCached [LawfulDelete σ] (store : σ) (hi : calls[i]? = some (.get key))
    (hkey : ValidKey key) :
    (outcomes CommitKVStoreCache.performCached calls (.newCommitKVStoreCache store)).1[i]? =
      some (.ok (.value (currentContents store calls i key))) := by
  rw [CommitKVStoreCache.outcomes_cached, getElem?_outcomes, hi, Option.map_some, performStore,
    outcome_reading, assertValidKey_eq_ok.mpr hkey, LawfulBasicKVStore.get_eq _ key hkey]
  rfl

/-- What the second cache returns from a `Get`. -/
theorem getElem?_performBig (store : σ) (hi : calls[i]? = some (.get key)) (hkey : ValidKey key) :
    (outcomes CommitKVStoreBigCache.performBig calls (.newCommitKVStoreBigCache store)).1[i]? =
      some (.ok (.value (if Hidden key then none else currentContents store calls i key))) := by
  rw [getElem?_outcomes, hi, Option.map_some, CommitKVStoreBigCache.performBig, outcome_reading,
    CommitKVStoreBigCache.get_of_valid hkey, CommitKVStoreBigCache.snd_outcomes_performBig]
  rfl

/-- **The two caches are interchangeable** for a sequence of calls exactly when none of its `Get`
calls is of one of the three keys while the store has it. -/
theorem interchangeable_iff [LawfulDelete σ] (store : σ) (calls : List InterBlockCall) :
    Interchangeable store calls ↔
      ∀ (i : ℕ) (key : Bytes), calls[i]? = some (.get key) → ValidKey key → Hidden key →
        currentContents store calls i key = none := by
  constructor
  · intro h i key hi hkey hhidden
    have hanswer := (h i key hi hkey).2
    rw [getElem?_performBig store hi hkey, if_pos hhidden] at hanswer
    cases hcontents : currentContents store calls i key with
    | none => rfl
    | some v =>
      rw [hcontents] at hanswer
      cases hanswer
  · intro h i key hi hkey
    refine ⟨getElem?_performCached store hi hkey, ?_⟩
    rw [getElem?_performBig store hi hkey]
    split
    · next hhidden => rw [h i key hi hkey hhidden]
    · rfl

end Cached

/-- One of the three keys. -/
def hiddenKey : Bytes :=
  [0x02, 0x14, 0xdc, 0x6f, 0x17, 0xbb, 0xec, 0x82, 0x4f, 0xff, 0x8f, 0x86, 0x58, 0x79, 0x66, 0xb2,
    0x04, 0x7d, 0xb6, 0xab, 0x73, 0x67, 0x73, 0x74, 0x61, 0x6b, 0x65]

/-- A hidden key is set and read. -/
theorem interchangeable_iff_of_dbAdapter :
    LawfulDelete DbAdapter ∧
      (Interchangeable DbAdapter.empty [.set hiddenKey (some [1]), .get hiddenKey] ↔
        ∀ (i : ℕ) (key : Bytes), [InterBlockCall.set hiddenKey (some [1]), .get hiddenKey][i]? =
          some (.get key) → ValidKey key → Hidden key →
            currentContents DbAdapter.empty [.set hiddenKey (some [1]), .get hiddenKey] i key =
              none) :=
  ⟨instLawfulDeleteDbAdapter, interchangeable_iff _ _⟩

/-- A key is set to `[1]`; the first cache returns `[1]` for it, and the second one `nil`. -/
theorem interchangeable_fails :
    ∃ calls : List InterBlockCall, calls = [.set hiddenKey (some [1]), .get hiddenKey] ∧
      ValidKey hiddenKey ∧
      (outcomes CommitKVStoreCache.performCached calls
        (.newCommitKVStoreCache DbAdapter.empty)).1[1]? = some (.ok (.value (some [1]))) ∧
      (outcomes CommitKVStoreBigCache.performBig calls
        (.newCommitKVStoreBigCache DbAdapter.empty)).1[1]? = some (.ok (.value none)) ∧
      ¬ Interchangeable DbAdapter.empty calls := by
  have hkey : ValidKey hiddenKey := by decide +kernel
  have hhidden : Hidden hiddenKey := by decide +kernel
  have hget : [InterBlockCall.set hiddenKey (some [1]), .get hiddenKey][1]? =
      some (.get hiddenKey) := rfl
  have hbig := getElem?_performBig DbAdapter.empty hget hkey
  rw [if_pos hhidden] at hbig
  refine ⟨_, rfl, hkey, getElem?_performCached DbAdapter.empty hget hkey, hbig, fun h => ?_⟩
  cases (h 1 hiddenKey hget hkey).2.symm.trans hbig

end MelodiaStore
