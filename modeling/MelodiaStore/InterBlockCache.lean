import MelodiaStore.Interleaving
import MelodiaStore.Simulation
import MelodiaStore.Types

/-!
# The Inter-Block Cache

`CommitKVStoreCache` of `cache/cache.go`: an adaptive replacement cache in front of a committed
store, shared by all the transactions of a block. `Set` and `Delete` take the mutex and change
first the cache and then the store. `Get` takes no lock: when the cache does not have the key,
it reads the store and then adds what it read to the cache.

The module splits the calls into their atomic steps, the calls of the cache, of the store and of
the mutex, and lets any number of clients interleave them; an eviction may come at any time. A
write that comes between the two steps of a `Get` of its key leaves the old value in the cache.

## Main results

* `staysCoherent_iff`: the cache has the values of the store whenever no call is under way, in
  every interleaving, exactly when no client can be about to read a key while another is about to
  change it.
* `staysCoherent_fails`: a `Get` and a `Set` of one key.
-/

namespace MelodiaStore

open Function (comp_update forall_update_iff update update_of_ne update_self)
open LawfulBasicKVStore (contents delete_eq get_eq set_eq valid_of_contents)

/-! ### The calls -/

/-- **The contract of the store below**: moreover a deletion that returns, of whatever key,
removes that key only. -/
class LawfulDelete (σ : Type) [LawfulBasicKVStore σ] : Prop where
  contents_delete : ∀ (s : σ) (k : Bytes) (s' : σ), BasicKVStore.delete s k = .ok s' → ∀ k',
    LawfulBasicKVStore.contents s' k' = if k' = k then none else LawfulBasicKVStore.contents s k'

instance instLawfulDeleteDbAdapter : LawfulDelete DbAdapter where
  contents_delete s k s' h := by
    by_cases hk : k = []
    · subst hk
      cases h
    · obtain rfl : s.erase k = s' := Except.ok.inj ((DbAdapter.delete_of_ne_nil hk).symm.trans h)
      exact s.lookup_erase k

/-- `CommitKVStoreCache`. The cache may hold `nil`, the value of a key that is absent. Of the
mutex only the write lock is used. -/
structure CommitKVStoreCache (σ : Type) where
  store : σ
  cache : GoMap Bytes Slice
  mtx : Bool

/-- A call of `Set` or `Delete`. -/
inductive CommitWrite
  | set (key : Bytes) (value : Slice)
  | delete (key : Bytes)

/-- A call of a client. -/
inductive CommitCall
  | get (key : Bytes)
  | write (w : CommitWrite)

namespace CommitWrite

variable {σ : Type}

def key : CommitWrite → Bytes
  | set key _ => key
  | delete key => key

/-- What the key has afterwards. -/
def value : CommitWrite → Slice
  | set _ value => value
  | delete _ => none

/-- The checks; `Delete` makes none. -/
def check : CommitWrite → Except Panic Unit
  | set key value => do assertValidKey key; assertValidValue value
  | delete _ => .ok ()

/-- The call of the cache. -/
def onCache (cache : GoMap Bytes Slice) : CommitWrite → GoMap Bytes Slice
  | set key value => cache.insert key value
  | delete key => cache.erase key

/-- The call of the store. -/
def onStore [BasicKVStore σ] (store : σ) : CommitWrite → Except Panic σ
  | set key value => BasicKVStore.set store key value
  | delete key => BasicKVStore.delete store key

/-- The store after the call, which leaves it as it is when it panics. -/
def storeAfter [BasicKVStore σ] (store : σ) (w : CommitWrite) : σ :=
  match w.onStore store with
  | .ok store' => store'
  | .error _ => store

/-- The store after the whole write. -/
def effect [BasicKVStore σ] (store : σ) (w : CommitWrite) : σ :=
  match w.check with
  | .ok _ => w.storeAfter store
  | .error _ => store

end CommitWrite

namespace CommitKVStoreCache

variable {σ : Type} [BasicKVStore σ]

/-- `NewCommitKVStoreCache`. -/
def newCommitKVStoreCache (store : σ) : CommitKVStoreCache σ := ⟨store, ∅, false⟩

/-- `CommitKVStoreCache.Get`. -/
def get (key : Bytes) : EStateM Panic (CommitKVStoreCache σ) Slice := do
  ofExcept (assertValidKey key)
  let ckv ← MonadState.get
  match ckv.cache.lookup key with
  | some value => return value
  | none =>
    let value ← ofExcept (BasicKVStore.get ckv.store key)
    set { ckv with cache := ckv.cache.insert key value }
    return value

/-- `Lock`, with the deferred `Unlock`, which also runs when the body panics. -/
def withLock {α : Type} (x : EStateM Panic (CommitKVStoreCache σ) α) :
    EStateM Panic (CommitKVStoreCache σ) α := fun ckv =>
  match x.run { ckv with mtx := true } with
  | .ok a ckv => .ok a { ckv with mtx := false }
  | .error e ckv => .error e { ckv with mtx := false }

/-- The common form of `Set` and `Delete`. -/
def writeThrough (w : CommitWrite) : EStateM Panic (CommitKVStoreCache σ) PUnit :=
  withLock do
    ofExcept w.check
    modify fun ckv => { ckv with cache := w.onCache ckv.cache }
    zoom store (fun store ckv => { ckv with store }) (updateStore (w.onStore ·))

/-- `CommitKVStoreCache.Set`. -/
def set (key : Bytes) (value : Slice) : EStateM Panic (CommitKVStoreCache σ) PUnit :=
  writeThrough (.set key value)

/-- `CommitKVStoreCache.Delete`. -/
def delete (key : Bytes) : EStateM Panic (CommitKVStoreCache σ) PUnit :=
  writeThrough (.delete key)

/-- `CommitKVStoreCache.ClearCache`. -/
def clearCache : EStateM Panic (CommitKVStoreCache σ) PUnit :=
  modify fun ckv => { ckv with cache := ∅ }

/-- Perform a call and drop its answer. -/
def perform : CommitCall → EStateM Panic (CommitKVStoreCache σ) PUnit
  | .get key => do let _ ← get key
  | .write (.set key value) => set key value
  | .write (.delete key) => delete key

end CommitKVStoreCache

/-- What a call does to the store. -/
def CommitCall.effect {σ : Type} [BasicKVStore σ] (store : σ) : CommitCall → σ
  | get _ => store
  | write w => w.effect store

/-! ### The steps of a client -/

/-- Where a client stands. -/
inductive CommitClient
  /-- between two calls -/
  | idle (calls : List CommitCall)
  /-- `Get` has not found the key in the cache -/
  | missed (key : Bytes) (calls : List CommitCall)
  /-- `Get` has read the store and is to add the value to the cache -/
  | fetched (key : Bytes) (value : Slice) (calls : List CommitCall)
  /-- `Set` or `Delete` has the mutex -/
  | locked (w : CommitWrite) (calls : List CommitCall)
  /-- the cache has the write, and the store has not -/
  | writing (w : CommitWrite) (calls : List CommitCall)
  /-- about to give back the mutex -/
  | unlocking (calls : List CommitCall)

namespace CommitClient

variable {σ : Type} [BasicKVStore σ]

/-- The atomic steps of a client, and an eviction, which may come at any time. -/
inductive Step : CommitClient × CommitKVStoreCache σ → CommitClient × CommitKVStoreCache σ → Prop
  | refused {key : Bytes} {calls : List CommitCall} {ckv : CommitKVStoreCache σ} {e : Panic}
      (h : assertValidKey key = .error e) : Step (idle (.get key :: calls), ckv) (idle calls, ckv)
  | hit {key : Bytes} {calls : List CommitCall} {ckv : CommitKVStoreCache σ} {value : Slice}
      (hkey : assertValidKey key = .ok ()) (h : ckv.cache.lookup key = some value) :
      Step (idle (.get key :: calls), ckv) (idle calls, ckv)
  | miss {key : Bytes} {calls : List CommitCall} {ckv : CommitKVStoreCache σ}
      (hkey : assertValidKey key = .ok ()) (h : ckv.cache.lookup key = none) :
      Step (idle (.get key :: calls), ckv) (missed key calls, ckv)
  | fetch {key : Bytes} {calls : List CommitCall} {ckv : CommitKVStoreCache σ} {value : Slice}
      (h : BasicKVStore.get ckv.store key = .ok value) :
      Step (missed key calls, ckv) (fetched key value calls, ckv)
  | fetchFails {key : Bytes} {calls : List CommitCall} {ckv : CommitKVStoreCache σ} {e : Panic}
      (h : BasicKVStore.get ckv.store key = .error e) :
      Step (missed key calls, ckv) (idle calls, ckv)
  | add {key : Bytes} {value : Slice} {calls : List CommitCall} {ckv : CommitKVStoreCache σ} :
      Step (fetched key value calls, ckv)
        (idle calls, { ckv with cache := ckv.cache.insert key value })
  | lock {w : CommitWrite} {calls : List CommitCall} {ckv : CommitKVStoreCache σ}
      (h : ckv.mtx = false) :
      Step (idle (.write w :: calls), ckv) (locked w calls, { ckv with mtx := true })
  | invalid {w : CommitWrite} {calls : List CommitCall} {ckv : CommitKVStoreCache σ} {e : Panic}
      (h : w.check = .error e) : Step (locked w calls, ckv) (unlocking calls, ckv)
  | cache {w : CommitWrite} {calls : List CommitCall} {ckv : CommitKVStoreCache σ}
      (h : w.check = .ok ()) :
      Step (locked w calls, ckv) (writing w calls, { ckv with cache := w.onCache ckv.cache })
  | store {w : CommitWrite} {calls : List CommitCall} {ckv : CommitKVStoreCache σ} :
      Step (writing w calls, ckv)
        (unlocking calls, { ckv with store := w.storeAfter ckv.store })
  | unlock {calls : List CommitCall} {ckv : CommitKVStoreCache σ} :
      Step (unlocking calls, ckv) (idle calls, { ckv with mtx := false })
  | evict {client : CommitClient} {ckv : CommitKVStoreCache σ} (key : Bytes) :
      Step (client, ckv) (client, { ckv with cache := ckv.cache.erase key })

/-- The steps of a client alone. -/
abbrev Steps : CommitClient × CommitKVStoreCache σ → CommitClient × CommitKVStoreCache σ → Prop :=
  Relation.ReflTransGen Step

end CommitClient

/-! ### Calls that are not interrupted -/

namespace CommitClient

section Alone

open CommitKVStoreCache (perform writeThrough)

variable {σ : Type}

/-- What is done under the lock. -/
theorem outcome_withLock {α : Type} (x : EStateM Panic (CommitKVStoreCache σ) α)
    (ckv : CommitKVStoreCache σ) :
    outcome (CommitKVStoreCache.withLock x) ckv = ((outcome x { ckv with mtx := true }).1,
      { (outcome x { ckv with mtx := true }).2 with mtx := false }) := by
  simp only [outcome, CommitKVStoreCache.withLock, EStateM.run]
  cases x { ckv with mtx := true } <;> rfl

variable [BasicKVStore σ] {ckv : CommitKVStoreCache σ} {calls : List CommitCall}

theorem snd_outcome_updateStore (w : CommitWrite) (store : σ) :
    (outcome (updateStore (w.onStore ·)) store).2 = w.storeAfter store := by
  simp only [outcome, updateStore, CommitWrite.storeAfter, EStateM.run]
  cases w.onStore store <;> rfl

/-- What a write leaves. -/
theorem snd_outcome_writeThrough (w : CommitWrite) (ckv : CommitKVStoreCache σ) :
    (outcome (writeThrough w) ckv).2 =
      match w.check with
      | .ok _ => ⟨w.storeAfter ckv.store, w.onCache ckv.cache, false⟩
      | .error _ => { ckv with mtx := false } := by
  rw [writeThrough, outcome_withLock]
  cases hcheck : w.check with
  | error e => rfl
  | ok _ =>
    rw [← snd_outcome_updateStore]
    exact congrArg (fun o : Except Panic PUnit × CommitKVStoreCache σ =>
      { o.2 with mtx := false }) (outcome_zoom _ _ _ _)

/-- An uninterrupted call of `Set` or `Delete`. -/
theorem write_alone (w : CommitWrite) (h : ckv.mtx = false) :
    Steps (idle (.write w :: calls), ckv) (idle calls, (outcome (writeThrough w) ckv).2) := by
  rw [snd_outcome_writeThrough]
  refine .head (.lock h) ?_
  cases hcheck : w.check with
  | error e => exact .head (.invalid hcheck) (.head .unlock .refl)
  | ok _ => exact .head (.cache hcheck) (.head .store (.head .unlock .refl))

/-- What `Get` does after its check. -/
theorem run_get_of_valid {key : Bytes} (hkey : assertValidKey key = .ok ()) :
    (CommitKVStoreCache.get key).run ckv =
      match ckv.cache.lookup key with
      | some value => .ok value ckv
      | none =>
        match BasicKVStore.get ckv.store key with
        | .ok value => .ok value { ckv with cache := ckv.cache.insert key value }
        | .error e => .error e ckv := by
  have hget : (MonadState.get : EStateM Panic _ _).run ckv = .ok ckv ckv := rfl
  rw [CommitKVStoreCache.get, hkey, run_bind_of_ok (run_ofExcept_ok () ckv), run_bind_of_ok hget]
  cases ckv.cache.lookup key with
  | some value => rfl
  | none =>
    cases hvalue : BasicKVStore.get ckv.store key with
    | ok value => rfl
    | error e => rfl

/-- An uninterrupted call of `Get`. -/
theorem get_alone (key : Bytes) :
    Steps (idle (.get key :: calls), ckv)
      (idle calls, (outcome (CommitKVStoreCache.get key) ckv).2) := by
  cases hkey : assertValidKey key with
  | error e =>
    rw [outcome, CommitKVStoreCache.get, hkey]
    exact .single (.refused hkey)
  | ok _ =>
    rw [outcome, run_get_of_valid hkey]
    cases hlookup : ckv.cache.lookup key with
    | some value => exact .single (.hit hkey hlookup)
    | none =>
      refine .head (.miss hkey hlookup) ?_
      cases hvalue : BasicKVStore.get ckv.store key with
      | ok value => exact .head (.fetch hvalue) (.single .add)
      | error e => exact .single (.fetchFails hvalue)

/-- **A call that is not interrupted** is the function of the source. -/
theorem call_alone (call : CommitCall) (h : ckv.mtx = false) :
    Steps (idle (call :: calls), ckv) (idle calls, (outcome (perform call) ckv).2) := by
  cases call with
  | get key =>
    rw [perform, snd_outcome_bind fun _ => readOnly_pure _]
    exact get_alone key
  | write w => cases w <;> exact write_alone _ h

/-- What `Get` leaves alone. -/
theorem get_frame (key : Bytes) (ckv : CommitKVStoreCache σ) :
    (outcome (CommitKVStoreCache.get key) ckv).2.store = ckv.store ∧
      (outcome (CommitKVStoreCache.get key) ckv).2.mtx = ckv.mtx := by
  cases hkey : assertValidKey key with
  | error e =>
    rw [outcome, CommitKVStoreCache.get, hkey]
    exact ⟨rfl, rfl⟩
  | ok _ =>
    rw [outcome, run_get_of_valid hkey]
    cases ckv.cache.lookup key with
    | some value => exact ⟨rfl, rfl⟩
    | none => cases BasicKVStore.get ckv.store key <;> exact ⟨rfl, rfl⟩

/-- What a call leaves of the store and the mutex. -/
theorem perform_frame (call : CommitCall) (ckv : CommitKVStoreCache σ) (h : ckv.mtx = false) :
    (outcome (perform call) ckv).2.store = call.effect ckv.store ∧
      (outcome (perform call) ckv).2.mtx = false := by
  have hwrite : ∀ w : CommitWrite, (outcome (writeThrough w) ckv).2.store = w.effect ckv.store ∧
      (outcome (writeThrough w) ckv).2.mtx = false := by
    intro w
    rw [snd_outcome_writeThrough, CommitWrite.effect]
    cases w.check <;> exact ⟨rfl, rfl⟩
  cases call with
  | get key =>
    rw [perform, snd_outcome_bind fun _ => readOnly_pure _, ← h]
    exact get_frame key ckv
  | write w => cases w <;> exact hwrite _

end Alone

end CommitClient

/-! ### One call after the other -/

section Serial

variable {σ : Type}

/-- A client makes its next call, from beginning to end. -/
inductive SerialStep [BasicKVStore σ] : List CommitCall × σ → List CommitCall × σ → Prop
  | of {call : CommitCall} {calls : List CommitCall} {store : σ} :
      SerialStep (call :: calls, store) (calls, call.effect store)

/-- The runs in which every call is made from beginning to end. -/
abbrev SerialRun {ι : Type} [DecidableEq ι] [BasicKVStore σ] :
    (ι → List CommitCall) × σ → (ι → List CommitCall) × σ → Prop :=
  Interleaving.Run fun _ => SerialStep

/-- When a client is about to read a key and another one to write it, in whatever order the
calls before have been made, that write does not change the value of the key. -/
def RaceFree {ι : Type} [DecidableEq ι] [LawfulBasicKVStore σ] (progs : ι → List CommitCall)
    (store : σ) : Prop :=
  ∀ c, SerialRun (progs, store) c → ∀ i j k w calls calls',
    c.1 i = .get k :: calls → c.1 j = .write w :: calls' → w.key = k →
      LawfulBasicKVStore.contents (w.effect c.2) k = LawfulBasicKVStore.contents c.2 k

variable [LawfulBasicKVStore σ] {w : CommitWrite}

/-- **What a write that passes its checks does to the store.** -/
theorem CommitWrite.contents_storeAfter [LawfulDelete σ] (h : w.check = .ok ()) (store : σ)
    (k : Bytes) :
    contents (w.storeAfter store) k = if k = w.key then w.value else contents store k := by
  cases w with
  | set key value =>
    obtain ⟨hkey, v, rfl, hv⟩ := valid_of_checks h
    obtain ⟨store', hset, hcontents⟩ := set_eq store key v hkey hv
    rw [storeAfter, onStore, hset]
    exact hcontents k
  | delete key =>
    rw [storeAfter, onStore]
    cases hdelete : BasicKVStore.delete store key with
    | ok store' => exact LawfulDelete.contents_delete store key store' hdelete k
    | error e =>
      -- a key whose deletion panics is not valid, and the store does not have it
      have hnone : contents store key = none := by
        cases hv : contents store key with
        | none => rfl
        | some v =>
          obtain ⟨store', hok, -⟩ := delete_eq store key (valid_of_contents store key v hv)
          rw [hdelete] at hok
          cases hok
      exact eq_ite_of_eq (f := contents store) (g := fun _ => none) hnone k

/-- An entry the cache has after its part of a write. -/
theorem CommitWrite.lookup_onCache {cache : GoMap Bytes Slice} {k : Bytes} {value : Slice}
    (h : (w.onCache cache).lookup k = some value) :
    k = w.key ∧ value = w.value ∨ k ≠ w.key ∧ cache.lookup k = some value := by
  cases w with
  | set key v =>
    rw [onCache, lookup_insert_ite] at h
    split at h
    · next hk => exact .inl ⟨hk, (Option.some.inj h).symm⟩
    · next hk => exact .inr ⟨hk, h⟩
  | delete key =>
    rw [onCache, lookup_erase_ite] at h
    split at h
    · cases h
    · next hk => exact .inr ⟨hk, h⟩

theorem CommitWrite.effect_of_check (h : w.check = .ok ()) (store : σ) :
    w.effect store = w.storeAfter store := by
  rw [effect, h]

end Serial

/-! ### What holds in every interleaving -/

namespace CommitClient

/-- The calls whose effect on the store is still to come. -/
def pending : CommitClient → List CommitCall
  | idle calls => calls
  | missed key calls => .get key :: calls
  | fetched key _ calls => .get key :: calls
  | locked w calls => .write w :: calls
  | writing w calls => .write w :: calls
  | unlocking calls => calls

/-- The client has the mutex. -/
def Critical : CommitClient → Prop
  | locked _ _ => True
  | writing _ _ => True
  | unlocking _ => True
  | _ => False

/-- The write of the client is in the cache and not in the store. -/
def Writing : CommitClient → Prop
  | writing _ _ => True
  | _ => False

variable {client : CommitClient}

/-- A writer is in the critical section. -/
theorem Writing.critical (h : client.Writing) : client.Critical := by
  cases client with
  | writing w calls => trivial
  | _ => cases h

theorem critical_update {ι : Type} [DecidableEq ι] {locals : ι → CommitClient} {i : ι}
    (h : client.Critical ↔ (locals i).Critical) (j : ι) :
    (update locals i client j).Critical ↔ (locals j).Critical := by
  by_cases hj : j = i
  · rw [hj, update_self, h]
  · rw [update_of_ne hj]

variable {σ : Type} [LawfulBasicKVStore σ]

/-- What a client has read is what the store has, and `m` is what the store will have when the
write under way has reached it. -/
def Sound (store : σ) (m : Bytes → Slice) : CommitClient → Prop
  | missed key _ => ValidKey key
  | fetched key value _ => value = contents store key
  | writing w _ => w.check = .ok () ∧ m = contents (w.storeAfter store)
  | _ => True

theorem Sound.of_not_writing {store : σ} {m m' : Bytes → Slice} (h : client.Sound store m)
    (hnot : ¬ client.Writing) : client.Sound store m' := by
  cases client with
  | writing w calls => exact absurd trivial hnot
  | _ => exact h

end CommitClient

section Interleavings

variable {ι σ : Type} [DecidableEq ι] [LawfulBasicKVStore σ]

/-- The runs of the clients. -/
abbrev CommitRun : (ι → CommitClient) × CommitKVStoreCache σ →
    (ι → CommitClient) × CommitKVStoreCache σ → Prop :=
  Interleaving.Run fun _ => CommitClient.Step

/-- **The invariant.** The calls that are still to come are those of a run in which every call is
made from beginning to end; at most one client has the mutex; and the cache has the values `m`
that the store has, or will have when the write under way has reached it. -/
structure CommitInvariant (progs₀ : ι → List CommitCall) (store₀ : σ)
    (c : (ι → CommitClient) × CommitKVStoreCache σ) (m : Bytes → Slice) : Prop where
  reachable : SerialRun (progs₀, store₀) (CommitClient.pending ∘ c.1, c.2.store)
  sound : ∀ i, (c.1 i).Sound c.2.store m
  quiet : (∀ i, ¬ (c.1 i).Writing) → m = contents c.2.store
  entries : ∀ k value, c.2.cache.lookup k = some value → value = m k
  held : ∀ i, (c.1 i).Critical → c.2.mtx = true
  alone : ∀ i j, (c.1 i).Critical → (c.1 j).Critical → i = j

open CommitClient (call_alone critical_update idle perform_frame unlocking writing)

namespace CommitInvariant

variable {progs₀ : ι → List CommitCall} {store₀ : σ} {locals : ι → CommitClient}
  {ckv ckv' : CommitKVStoreCache σ} {m : Bytes → Slice} {i : ι} {client : CommitClient}
  {calls : List CommitCall}

/-- The start. -/
theorem init (progs : ι → List CommitCall) (store : σ) :
    CommitInvariant progs store (fun i => .idle (progs i), .newCommitKVStoreCache store)
      (contents store) where
  reachable := .refl
  sound _ := trivial
  quiet _ := rfl
  entries k value h := by cases h
  held _ h := h.elim
  alone _ _ h := h.elim

section

variable (h : CommitInvariant progs₀ store₀ (locals, ckv) m)
include h

variable {w : CommitWrite} {k : Bytes}

/-- The call a client has finished is made from beginning to end at that time. -/
theorem reachable_finish (call : CommitCall) (hcall : (locals i).pending = call :: client.pending) :
    SerialRun (progs₀, store₀)
      (CommitClient.pending ∘ update locals i client, call.effect ckv.store) := by
  rw [comp_update]
  refine h.reachable.tail (.of i ?_)
  rw [Function.comp_apply, hcall]
  exact .of

theorem reachable_move (hpending : (locals i).pending = client.pending) :
    SerialRun (progs₀, store₀) (CommitClient.pending ∘ update locals i client, ckv.store) := by
  rw [comp_update, ← hpending, ← Function.comp_apply (f := CommitClient.pending),
    Function.update_eq_self]
  exact h.reachable

/-- A step that leaves the store and the mutex, and the client in or out of its write. -/
theorem replace (hreachable : SerialRun (progs₀, store₀)
      (CommitClient.pending ∘ update locals i client, ckv.store))
    (hstore : ckv'.store = ckv.store) (hmtx : ckv'.mtx = ckv.mtx)
    (hentries : ∀ k value, ckv'.cache.lookup k = some value → value = m k)
    (hsound : client.Sound ckv.store m) (hwriting : (locals i).Writing → client.Writing)
    (hcritical : client.Critical ↔ (locals i).Critical) :
    CommitInvariant progs₀ store₀ (update locals i client, ckv') m := by
  have hcriticals := critical_update hcritical
  refine ⟨hstore ▸ hreachable, ?_, ?_, hentries, ?_, ?_⟩
  · rw [hstore, forall_update_iff locals fun _ c => c.Sound ckv.store m]
    exact ⟨hsound, fun j _ => h.sound j⟩
  · rw [hstore, forall_update_iff locals fun _ c => ¬ c.Writing]
    rintro ⟨hnot, hothers⟩
    refine h.quiet fun j => ?_
    by_cases hj : j = i
    · exact hj ▸ mt hwriting hnot
    · exact hothers j hj
  · intro j hj
    exact hmtx.trans (h.held j ((hcriticals j).mp hj))
  · intro j j' hj hj'
    exact h.alone j j' ((hcriticals j).mp hj) ((hcriticals j').mp hj')

/-- No other client is in its write. -/
theorem not_writing (hi : (locals i).Critical) {j : ι} (hj : j ≠ i) : ¬ (locals j).Writing :=
  fun hwriting => hj (h.alone j i hwriting.critical hi)

/-- While a client has the mutex and is not in its write, the cache has the values of the
store. -/
theorem eq_contents (hi : (locals i).Critical) (hnot : ¬ (locals i).Writing) :
    m = contents ckv.store := by
  refine h.quiet fun j => ?_
  by_cases hj : j = i
  · exact hj ▸ hnot
  · exact h.not_writing hi hj

/-- **No race**: while a client is in a `Get`, the write under way does not change its key. -/
theorem agree [LawfulDelete σ] (hfree : RaceFree progs₀ store₀)
    (hget : (locals i).pending = .get k :: calls) : m k = contents ckv.store k := by
  by_cases hwriting : ∃ j, (locals j).Writing
  · obtain ⟨j, hj⟩ := hwriting
    have hsound := h.sound j
    have hrace := hfree _ h.reachable i j k
    simp only [Function.comp_apply] at hrace hsound
    cases hlocal : locals j with
    | writing w calls' =>
      rw [hlocal] at hsound hrace
      obtain ⟨hcheck, rfl⟩ := hsound
      by_cases hk : w.key = k
      · rw [← w.effect_of_check hcheck]
        exact hrace w calls calls' hget rfl hk
      · rw [w.contents_storeAfter hcheck, if_neg (Ne.symm hk)]
    | _ =>
      rw [hlocal] at hj
      cases hj
  · exact congrFun (h.quiet (not_exists.mp hwriting)) k

/-- Taking the mutex. -/
theorem lock (hi : locals i = .idle (.write w :: calls)) (hmtx : ckv.mtx = false) :
    CommitInvariant progs₀ store₀
      (update locals i (.locked w calls), { ckv with mtx := true }) m := by
  have hnone : ∀ j, ¬ (locals j).Critical := fun j hj => by
    cases hmtx.symm.trans (h.held j hj)
  have hothers : ∀ j, (update locals i (.locked w calls) j).Critical → j = i := by
    intro j hj
    by_contra hne
    rw [update_of_ne hne] at hj
    exact hnone j hj
  refine ⟨h.reachable_move (by rw [hi]; rfl), ?_, fun _ => ?_, h.entries, fun _ _ => rfl,
    fun j j' hj hj' => (hothers j hj).trans (hothers j' hj').symm⟩
  · rw [forall_update_iff locals fun _ c => c.Sound ckv.store m]
    exact ⟨trivial, fun j _ => h.sound j⟩
  · exact h.quiet fun j hj => hnone j hj.critical

/-- Giving back the mutex. -/
theorem unlock (hi : locals i = .unlocking calls) :
    CommitInvariant progs₀ store₀ (update locals i (.idle calls), { ckv with mtx := false }) m := by
  have hcritical : (locals i).Critical := by rw [hi]; trivial
  have hnone : ∀ j, ¬ (update locals i (.idle calls) j).Critical := by
    rw [forall_update_iff locals fun _ c => ¬ c.Critical]
    exact ⟨id, fun j hne hj => hne (h.alone j i hj hcritical)⟩
  refine ⟨h.reachable_move (by rw [hi]; rfl), ?_, fun _ => ?_, h.entries,
    fun j hj => absurd hj (hnone j), fun j _ hj => absurd hj (hnone j)⟩
  · rw [forall_update_iff locals fun _ c => c.Sound ckv.store m]
    exact ⟨trivial, fun j _ => h.sound j⟩
  · exact h.eq_contents hcritical (by rw [hi]; exact id)

/-- The write reaches the cache. -/
theorem cache [LawfulDelete σ] (hi : locals i = .locked w calls) (hcheck : w.check = .ok ()) :
    CommitInvariant progs₀ store₀
      (update locals i (.writing w calls), { ckv with cache := w.onCache ckv.cache })
      (contents (w.storeAfter ckv.store)) := by
  have hcritical : (locals i).Critical := by rw [hi]; trivial
  have hm : m = contents ckv.store := h.eq_contents hcritical (by rw [hi]; exact id)
  have hafter : (writing w calls).Critical := trivial
  have hcriticals := critical_update (iff_of_true hafter hcritical)
  refine ⟨h.reachable_move (by rw [hi]; rfl), ?_, fun hquiet => ?_, fun k value hk => ?_,
    fun j hj => h.held j ((hcriticals j).mp hj),
    fun j j' hj hj' => h.alone j j' ((hcriticals j).mp hj) ((hcriticals j').mp hj')⟩
  · rw [forall_update_iff locals fun _ c =>
      c.Sound ckv.store (contents (w.storeAfter ckv.store))]
    exact ⟨⟨hcheck, rfl⟩, fun j hj => (h.sound j).of_not_writing (h.not_writing hcritical hj)⟩
  · have hwriting := hquiet i
    simp only [update_self] at hwriting
    exact absurd trivial hwriting
  · rw [w.contents_storeAfter hcheck, ← hm]
    rcases CommitWrite.lookup_onCache hk with ⟨hkey, hvalue⟩ | ⟨hkey, hlookup⟩
    · rw [if_pos hkey, hvalue]
    · rw [if_neg hkey]
      exact h.entries k value hlookup

/-- The write reaches the store. -/
theorem store [LawfulDelete σ] (hfree : RaceFree progs₀ store₀) (hi : locals i = .writing w calls) :
    CommitInvariant progs₀ store₀
      (update locals i (.unlocking calls),
        { ckv with store := w.storeAfter ckv.store }) m := by
  have hcritical : (locals i).Critical := by rw [hi]; trivial
  obtain ⟨hcheck, hm⟩ : (writing w calls).Sound ckv.store m := hi ▸ h.sound i
  have hafter : (unlocking calls).Critical := trivial
  have hcriticals := critical_update (iff_of_true hafter hcritical)
  have hpending : (locals i).pending = .write w :: (unlocking calls).pending := by
    rw [hi]
    rfl
  have hreachable := h.reachable_finish (.write w) hpending
  rw [CommitCall.effect, w.effect_of_check hcheck] at hreachable
  refine ⟨hreachable, ?_, fun _ => hm, h.entries, fun j hj => h.held j ((hcriticals j).mp hj),
    fun j j' hj hj' => h.alone j j' ((hcriticals j).mp hj) ((hcriticals j').mp hj')⟩
  rw [forall_update_iff locals fun _ c => c.Sound (w.storeAfter ckv.store) m]
  refine ⟨trivial, fun j hj => ?_⟩
  have hsound : (locals j).Sound ckv.store m := h.sound j
  have hnot := h.not_writing hcritical hj
  cases hlocal : locals j with
  | missed key calls' =>
    rw [hlocal] at hsound
    exact hsound
  | fetched key value calls' =>
    -- the value another client has read is not the old value of a key that changes
    rw [hlocal] at hsound
    have hagree := h.agree hfree (i := j) (k := key) (by rw [hlocal]; rfl)
    exact hsound.trans (hagree.symm.trans (congrFun hm key))
  | writing w' calls' =>
    rw [hlocal] at hnot
    exact absurd trivial hnot
  | _ => trivial

/-- A step with which a `Get` ends. -/
theorem finish_get (hpending : (locals i).pending = .get k :: calls)
    (hcritical : ¬ (locals i).Critical) (hstore : ckv'.store = ckv.store)
    (hmtx : ckv'.mtx = ckv.mtx)
    (hentries : ∀ k value, ckv'.cache.lookup k = some value → value = m k) :
    CommitInvariant progs₀ store₀ (update locals i (.idle calls), ckv') m :=
  h.replace (h.reachable_finish (.get k) hpending) hstore hmtx hentries trivial
    (fun hwriting => absurd hwriting.critical hcritical) (iff_of_false id hcritical)

end

/-- **What a step preserves.** -/
theorem step [LawfulDelete σ] (hfree : RaceFree progs₀ store₀)
    {c c' : (ι → CommitClient) × CommitKVStoreCache σ} (h : ∃ m, CommitInvariant progs₀ store₀ c m)
    (hstep : Interleaving.Step (fun _ : ι => CommitClient.Step) c c') :
    ∃ m, CommitInvariant progs₀ store₀ c' m := by
  obtain ⟨m, h⟩ := h
  obtain @⟨i, locals, ckv, ckv', client, hstep⟩ := hstep
  generalize hi : locals i = before at hstep
  cases hstep with
  | refused _ | hit _ _ =>
    exact ⟨m, h.finish_get (by rw [hi]; rfl) (by rw [hi]; exact id) rfl rfl h.entries⟩
  | miss hkey _ =>
    exact ⟨m, h.replace (h.reachable_move (by rw [hi]; rfl)) rfl rfl h.entries
      (validKey_of_assertValidKey hkey) (by rw [hi]; exact id) (by rw [hi]; rfl)⟩
  | @fetch key calls ckv value hvalue =>
    have hkey : (CommitClient.missed key calls).Sound ckv.store m := hi ▸ h.sound i
    have hread : value = contents ckv.store key :=
      Except.ok.inj (hvalue.symm.trans (get_eq ckv.store key hkey))
    exact ⟨m, h.replace (h.reachable_move (by rw [hi]; rfl)) rfl rfl h.entries hread
      (by rw [hi]; exact id) (by rw [hi]; rfl)⟩
  | fetchFails _ =>
    exact ⟨m, h.finish_get (by rw [hi]; rfl) (by rw [hi]; exact id) rfl rfl h.entries⟩
  | @add key value calls ckv =>
    have hread : (CommitClient.fetched key value calls).Sound ckv.store m := hi ▸ h.sound i
    have hpending : (locals i).pending = .get key :: calls := by rw [hi]; rfl
    refine ⟨m, h.finish_get hpending (by rw [hi]; exact id) rfl rfl fun k v hk => ?_⟩
    rw [lookup_insert_ite] at hk
    split at hk
    · next hkey =>
      rw [hkey, h.agree hfree hpending]
      exact (Option.some.inj hk).symm.trans hread
    · exact h.entries k v hk
  | lock hmtx => exact ⟨m, h.lock hi hmtx⟩
  | @invalid w calls ckv e hcheck =>
    have hpending : (locals i).pending = .write w :: (unlocking calls).pending := by
      rw [hi]
      rfl
    have hreachable := h.reachable_finish (.write w) hpending
    rw [CommitCall.effect, CommitWrite.effect, hcheck] at hreachable
    exact ⟨m, h.replace hreachable rfl rfl h.entries trivial (by rw [hi]; exact id)
      (by rw [hi]; rfl)⟩
  | cache hcheck => exact ⟨_, h.cache hi hcheck⟩
  | store => exact ⟨m, h.store hfree hi⟩
  | unlock => exact ⟨m, h.unlock hi⟩
  | evict key =>
    rw [← hi, Function.update_eq_self]
    refine ⟨m, h.reachable, h.sound, h.quiet, fun k v hk => ?_, h.held, h.alone⟩
    rw [lookup_erase_ite] at hk
    split at hk
    · cases hk
    · exact h.entries k v hk

end CommitInvariant

/-! ### Coherence -/

/-- Every entry of the cache is the value of the store. -/
def CommitKVStoreCache.Coherent (ckv : CommitKVStoreCache σ) : Prop :=
  ∀ k value, ckv.cache.lookup k = some value → value = contents ckv.store k

/-- **A `Get` from a coherent cache** returns the value of the store. -/
theorem CommitKVStoreCache.Coherent.get {ckv : CommitKVStoreCache σ} (h : ckv.Coherent)
    {key : Bytes} (hkey : ValidKey key) :
    (outcome (CommitKVStoreCache.get key) ckv).1 = .ok (contents ckv.store key) := by
  rw [outcome, CommitClient.run_get_of_valid (assertValidKey_eq_ok.mpr hkey)]
  cases hlookup : ckv.cache.lookup key with
  | some value => rw [h key value hlookup]
  | none => rw [get_eq ckv.store key hkey]

/-- No call is under way. -/
def Quiescent (locals : ι → CommitClient) : Prop := ∀ i, ∃ calls, locals i = .idle calls

/-- Whatever the clients do at the same time, whenever no call is under way the cache has the
values of the store, and a `Get` returns them. -/
def StaysCoherent (progs : ι → List CommitCall) (store : σ) : Prop :=
  ∀ c : (ι → CommitClient) × CommitKVStoreCache σ,
    CommitRun (fun i => .idle (progs i), .newCommitKVStoreCache store) c → Quiescent c.1 →
      c.2.Coherent ∧ ∀ k, ValidKey k →
        (outcome (CommitKVStoreCache.get k) c.2).1 = .ok (contents c.2.store k)

/-- Without races the cache stays coherent. -/
theorem RaceFree.staysCoherent [LawfulDelete σ] {progs : ι → List CommitCall} {store : σ}
    (hfree : RaceFree progs store) : StaysCoherent progs store := by
  intro c hrun hquiescent
  obtain ⟨m, h⟩ := hrun.invariant (fun _ _ => CommitInvariant.step hfree)
    ⟨contents store, .init progs store⟩
  have hm : m = contents c.2.store := h.quiet fun i hwriting => by
    obtain ⟨calls, hi⟩ := hquiescent i
    rw [hi] at hwriting
    exact hwriting
  have hcoherent : c.2.Coherent := fun k value hk => (h.entries k value hk).trans (congrFun hm k)
  exact ⟨hcoherent, fun k => hcoherent.get⟩

/-! ### The race -/

section Race

variable {progs progs' : ι → List CommitCall} {i : ι}

/-- A stretch in which one client moves alone. -/
theorem commitRun_alone {locals : ι → CommitClient} {before after : CommitClient}
    {ckv ckv' : CommitKVStoreCache σ} (hi : locals i = before)
    (h : CommitClient.Steps (before, ckv) (after, ckv')) :
    CommitRun (locals, ckv) (update locals i after, ckv') :=
  Interleaving.Run.solo (fun _ => CommitClient.Step) i (hi ▸ h)

/-- **Calls that are made one after the other** are an interleaving. -/
theorem exists_run_of_serialRun {store : σ} {c : (ι → List CommitCall) × σ}
    (h : SerialRun (progs, store) c) :
    ∃ ckv : CommitKVStoreCache σ, CommitRun
      (fun i => .idle (progs i), .newCommitKVStoreCache store) (fun i => .idle (c.1 i), ckv) ∧
        ckv.store = c.2 ∧ ckv.mtx = false := by
  induction h with
  | refl => exact ⟨_, .refl, rfl, rfl⟩
  | @tail c c' _ hlast ih =>
    obtain ⟨ckv, hrun, hstore, hmtx⟩ := ih
    obtain @⟨i, locals, store, store', calls, hstep⟩ := hlast
    generalize hi : locals i = before at hstep
    obtain @⟨call, calls, store⟩ := hstep
    obtain ⟨hstore', hmtx'⟩ := perform_frame call ckv hmtx
    refine ⟨_, hrun.trans ?_, hstore'.trans (by rw [hstore]), hmtx'⟩
    have halone : CommitRun (idle ∘ locals, ckv) _ :=
      commitRun_alone (congrArg idle hi) (call_alone call hmtx)
    rwa [← comp_update] at halone

/-- **The race.** A client misses a key and reads the store; another one writes the key; and the
first one adds what it has read. -/
theorem commitRun_race (ckv : CommitKVStoreCache σ) (hmtx : ckv.mtx = false) {j : ι} {k : Bytes}
    {w : CommitWrite} {calls calls' : List CommitCall} (hi : progs i = .get k :: calls)
    (hj : progs j = .write w :: calls') (hk : ValidKey k) :
    ∃ locals, Quiescent locals ∧ ∃ ckv' : CommitKVStoreCache σ,
      CommitRun (fun i => .idle (progs i), ckv) (locals, ckv') ∧
        ckv'.store = w.effect ckv.store ∧
        ckv'.cache.lookup k = some (contents ckv.store k) := by
  have hij : i ≠ j := by
    rintro rfl
    rw [hi] at hj
    cases hj
  -- the first client gets as far as the value it is to add
  have hfetch : CommitClient.Steps (.idle (.get k :: calls), ckv)
      (.fetched k (contents ckv.store k) calls, { ckv with cache := ckv.cache.erase k }) :=
    .head (.evict k) (.head (.miss (assertValidKey_eq_ok.mpr hk) (AList.lookup_erase k _))
      (.single (.fetch (get_eq ckv.store k hk))))
  have hrun₁ : CommitRun (fun i => .idle (progs i), ckv) _ :=
    commitRun_alone (congrArg idle hi) hfetch
  -- the second one makes its call
  have hlocal : update (fun i => idle (progs i)) i
      (.fetched k (contents ckv.store k) calls) j = .idle (.write w :: calls') := by
    rw [update_of_ne hij.symm, hj]
  have hrun₂ := hrun₁.trans (commitRun_alone hlocal (call_alone (.write w) hmtx))
  -- and the first one goes on
  have hrun₃ := hrun₂.trans (commitRun_alone
    ((update_of_ne hij _ _).trans (update_self i _ _)) (.single .add))
  have hframe := perform_frame (.write w) { ckv with cache := ckv.cache.erase k } hmtx
  refine ⟨_, ?_, _, hrun₃, hframe.1, AList.lookup_insert _⟩
  intro x
  by_cases hxi : x = i
  · exact ⟨calls, by rw [hxi, update_self]⟩
  · by_cases hxj : x = j
    · exact ⟨calls', by rw [hxj, update_of_ne hij.symm, update_self]⟩
    · exact ⟨progs x, by
        rw [update_of_ne hxi, update_of_ne hxj, update_of_ne hxi]⟩

/-- **The cache stays coherent** in every interleaving of the calls exactly when no client can be
about to read a key while another one is about to change its value. -/
theorem staysCoherent_iff [LawfulDelete σ] (progs : ι → List CommitCall) (store : σ) :
    StaysCoherent progs store ↔ RaceFree progs store := by
  refine ⟨fun hstays c hserial i j k w calls calls' hi hj _ => ?_, fun h => h.staysCoherent⟩
  obtain ⟨ckv, hrun, hstore, hmtx⟩ := exists_run_of_serialRun hserial
  by_cases hk : ValidKey k
  · obtain ⟨locals, hquiescent, ckv', hrace, hstore', hlookup⟩ := commitRun_race ckv hmtx hi hj hk
    have hcoherent := (hstays _ (hrun.trans hrace) hquiescent).1
    rw [← hstore, ← hstore']
    exact (hcoherent k _ hlookup).symm
  · -- the store has no key that is not valid
    have hnone : ∀ store : σ, contents store k = none := fun store =>
      Option.eq_none_iff_forall_ne_some.mpr fun v hv =>
        hk (LawfulBasicKVStore.valid_of_contents store k v hv)
    rw [hnone, hnone]

end Race

end Interleavings

/-- A `Get` and a `Set` of one key. -/
def racyCalls : Bool → List CommitCall
  | false => [.get [1]]
  | true => [.write (.set [1] (some [2]))]

/-- Two goroutines over a database. -/
theorem staysCoherent_iff_of_dbAdapter :
    LawfulDelete DbAdapter ∧
      (StaysCoherent racyCalls DbAdapter.empty ↔ RaceFree racyCalls DbAdapter.empty) :=
  ⟨instLawfulDeleteDbAdapter, staysCoherent_iff racyCalls DbAdapter.empty⟩

/-- One client reads a key that is absent, the other one sets it to `[2]` in between, and the
cache keeps the absence. -/
theorem staysCoherent_fails :
    ∃ c, CommitRun (fun i => .idle (racyCalls i), .newCommitKVStoreCache DbAdapter.empty) c ∧
      Quiescent c.1 ∧ c.2.cache.lookup [1] = some none ∧ c.2.store.lookup [1] = some [2] ∧
      ¬ c.2.Coherent ∧ (outcome (CommitKVStoreCache.get [1]) c.2).1 = .ok none := by
  have hget : racyCalls false = .get [1] :: [] := rfl
  have hset : racyCalls true = .write (.set [1] (some [2])) :: [] := rfl
  obtain ⟨locals, hquiescent, ckv, hrun, hstore, hlookup⟩ :=
    commitRun_race (.newCommitKVStoreCache DbAdapter.empty) rfl hget hset (by decide)
  have hvalue : ckv.store.lookup [1] = some [2] := by rw [hstore]; rfl
  refine ⟨(locals, ckv), hrun, hquiescent, hlookup, hvalue, fun hcoherent => ?_, ?_⟩
  · cases (hcoherent [1] none hlookup).trans hvalue
  · have hcheck : assertValidKey [1] = .ok () := rfl
    rw [outcome, CommitClient.run_get_of_valid hcheck, hlookup]
    rfl

end MelodiaStore
