import MelodiaStore.InterBlockCache
import MelodiaStore.StableSort

/-!
# State Streaming

`listenkv.Store` records the writes that go through it with a `types.MemoryListener`, and
`PopStateCache` of `rootmulti.Store` collects what the listeners of all stores have recorded,
sorted by the name of the store. A listener is shared by its store and the root store, which
empties it.

The mounted stores are a parameter. Whatever they accept, a write that returns has changed its key
and no other (`LawfulSet`, `LawfulDelete`).

## Main results

* `popStateCache_faithful`: in every interleaving of writes and pops, and for every order in which
  the listeners are met, a pop returns the writes since the pop before it, once each, by store and
  then by time, and they turn what a store had then into what it has now.
-/

namespace MelodiaStore

open LawfulBasicKVStore (contents)

/-- **The contract of a mounted store**: moreover a write that returns, of whatever key and value,
changes that key only. -/
class LawfulSet (σ : Type) [LawfulBasicKVStore σ] : Prop where
  contents_set : ∀ (s : σ) (k : Bytes) (v : Slice) (s' : σ), BasicKVStore.set s k v = .ok s' →
    ∀ k', contents s' k' = if k' = k then v else contents s k'

instance instLawfulSetDbAdapter : LawfulSet DbAdapter where
  contents_set s k v s' h k' := by
    by_cases hk : ValidKey k
    · cases hv : assertValidValue v with
      | ok _ =>
        obtain ⟨b, rfl, hb⟩ := assertValidValue_eq_ok.mp hv
        obtain rfl := Except.ok.inj ((DbAdapter.set_of_valid hk hb).symm.trans h)
        exact s.lookup_insert k hk b k'
      | error e =>
        have hset : s.set k v = .ok s' := h
        unfold DbAdapter.set at hset
        rw [hv] at hset
        split at hset <;> cases hset
    · obtain ⟨e, he⟩ := DbAdapter.set_of_not_valid hk
      cases he.symm.trans h

namespace CommitWrite

variable {σ : Type} [LawfulBasicKVStore σ] [LawfulSet σ] [LawfulDelete σ]

/-- A write that returns changes its key only. -/
theorem contents_onStore {w : CommitWrite} {s s' : σ} (h : w.onStore s = .ok s') (k : Bytes) :
    contents s' k = if k = w.key then w.value else contents s k := by
  cases w with
  | set key value => exact LawfulSet.contents_set s key value s' h k
  | delete key => exact LawfulDelete.contents_delete s key s' h k

end CommitWrite

/-! ### Listeners -/

/-- `types.StoreKVPair`. -/
structure StoreKVPair where
  storeKey : Bytes
  delete : Bool
  key : Bytes
  value : Slice
  deriving DecidableEq

/-- `types.MemoryListener`. -/
structure MemoryListener where
  stateCache : List StoreKVPair

namespace MemoryListener

/-- `NewMemoryListener`. -/
def new : MemoryListener := ⟨[]⟩

/-- `MemoryListener.OnWrite`. -/
def onWrite (fl : MemoryListener) (storeKey key : Bytes) (value : Slice) (delete : Bool) :
    MemoryListener :=
  ⟨fl.stateCache ++ [⟨storeKey, delete, key, value⟩]⟩

/-- `MemoryListener.PopStateCache`. -/
def popStateCache (fl : MemoryListener) : List StoreKVPair × MemoryListener := (fl.stateCache, ⟨[]⟩)

end MemoryListener

/-- `listenkv.Store`. -/
structure ListenStore (π : Type) where
  parent : π
  listener : MemoryListener
  parentStoreKey : Bytes

/-- What a write is recorded as. -/
def CommitWrite.record (name : Bytes) : CommitWrite → StoreKVPair
  | set key value => ⟨name, false, key, value⟩
  | delete key => ⟨name, true, key, none⟩

theorem CommitWrite.storeKey_record (name : Bytes) (w : CommitWrite) :
    (w.record name).storeKey = name := by
  cases w <;> rfl

namespace ListenStore

variable {π : Type}

variable [BasicKVStore π]

/-- `listenkv.Store.Get`. -/
def get (store : ListenStore π) (key : Bytes) : Except Panic Slice :=
  BasicKVStore.get store.parent key

/-- `listenkv.Store.Set`. -/
def set (store : ListenStore π) (key : Bytes) (value : Slice) : Except Panic (ListenStore π) := do
  assertValidKey key
  let parent ← BasicKVStore.set store.parent key value
  return { store with
    parent, listener := store.listener.onWrite store.parentStoreKey key value false }

/-- `listenkv.Store.Delete`. -/
def delete (store : ListenStore π) (key : Bytes) : Except Panic (ListenStore π) := do
  let parent ← BasicKVStore.delete store.parent key
  return { store with
    parent, listener := store.listener.onWrite store.parentStoreKey key none true }

instance instBasicKVStore : BasicKVStore (ListenStore π) where
  get := get
  set := set
  delete := delete

/-- The store after a write has returned. -/
def recorded (store : ListenStore π) (parent : π) (w : CommitWrite) : ListenStore π :=
  { store with parent, listener := ⟨store.listener.stateCache ++ [w.record store.parentStoreKey]⟩ }

/-- **A write that returns** was made in the parent, and is recorded. -/
theorem exists_of_onStore {store store' : ListenStore π} {w : CommitWrite}
    (h : w.onStore store = .ok store') :
    ∃ parent, w.onStore store.parent = .ok parent ∧ store' = store.recorded parent w := by
  cases w with
  | set key value =>
    obtain ⟨-, -, hset⟩ := except_bind_eq_ok.mp h
    obtain ⟨parent, hparent, hset⟩ := except_bind_eq_ok.mp hset
    exact ⟨parent, hparent, (Except.ok.inj hset).symm⟩
  | delete key =>
    obtain ⟨parent, hparent, hdelete⟩ := except_bind_eq_ok.mp h
    exact ⟨parent, hparent, (Except.ok.inj hdelete).symm⟩

end ListenStore

/-! ### The root store -/

/-- The part of `rootmulti.Store` that a write and `PopStateCache` use. A store key is its name; a
listener may be `nil`. -/
structure StreamingRoot (π : Type) where
  stores : GoMap Bytes π
  listeners : GoMap Bytes (Option MemoryListener)

/-- What `GetKVStore` returns: a mounted store, or the `listenkv.Store` around it. -/
inductive GotStore (π : Type)
  | mounted (store : π)
  | listened (store : ListenStore π)

/-- A call of `Set` or `Delete` of the store. -/
def GotStore.write {π : Type} [BasicKVStore π] (w : CommitWrite) :
    GotStore π → Except Panic (GotStore π)
  | mounted store => (w.onStore store).map mounted
  | listened store => (w.onStore store).map listened

namespace StreamingRoot

variable {π : Type}

/-- One round of the loop of `AddListeners`. -/
def addListener (rs : StreamingRoot π) (key : Bytes) : StreamingRoot π :=
  match rs.listeners.lookup key with
  | some (some _) => rs
  | _ => { rs with listeners := rs.listeners.insert key (some .new) }

/-- `Store.AddListeners`. -/
def addListeners (rs : StreamingRoot π) (keys : List Bytes) : StreamingRoot π :=
  keys.foldl addListener rs

/-- `Store.ListeningEnabled`. -/
def listeningEnabled (rs : StreamingRoot π) (key : Bytes) : Bool :=
  match rs.listeners.lookup key with
  | some ls => ls.isSome
  | none => false

/-- `Store.GetKVStore`, without tracing. -/
def getKVStore (rs : StreamingRoot π) (key : Bytes) : Except Panic (GotStore π) :=
  match rs.stores.lookup key with
  | none => .error (.text ("store does not exist for key: " ++
      String.ofList (key.map fun b => Char.ofNat b.toNat)))
  | some store =>
    match rs.listeners.lookup key with
    | some (some listener) => .ok (.listened ⟨store, listener, key⟩)
    | _ => .ok (.mounted store)

/-- A call of the store that `GetKVStore` returned has changed the mounted store and the listener
it points to. -/
def put (rs : StreamingRoot π) (key : Bytes) : GotStore π → StreamingRoot π
  | .mounted store => { rs with stores := rs.stores.insert key store }
  | .listened store =>
    ⟨rs.stores.insert key store.parent, rs.listeners.insert key (some store.listener)⟩

/-- A call of `Set` or `Delete` of the store that `GetKVStore` returns. -/
def write [BasicKVStore π] (rs : StreamingRoot π) (key : Bytes) (w : CommitWrite) :
    Except Panic (StreamingRoot π) := do
  let store ← rs.getKVStore key
  let store ← store.write w
  return rs.put key store

/-- One round of the loop of `PopStateCache`: what was collected, and the listeners. -/
def popRound (done : List StoreKVPair × GoMap Bytes (Option MemoryListener)) (key : Bytes) :
    List StoreKVPair × GoMap Bytes (Option MemoryListener) :=
  match done.2.lookup key with
  | some (some ls) => (done.1 ++ ls.popStateCache.1, done.2.insert key (some ls.popStateCache.2))
  | _ => done

/-- `Store.PopStateCache`. -/
def popStateCache (order : Traversal Bytes (Option MemoryListener)) (rs : StreamingRoot π) :
    List StoreKVPair × StreamingRoot π :=
  let done := ((order.visit rs.listeners).map Sigma.fst).foldl popRound ([], rs.listeners)
  (sortBy StoreKVPair.storeKey done.1, { rs with listeners := done.2 })

end StreamingRoot

/-- A call of the streaming system. A pop comes with the order in which it meets the listeners. -/
inductive StreamCall
  | write (name : Bytes) (w : CommitWrite)
  | pop (order : Traversal Bytes (Option MemoryListener))

namespace StreamCall

variable {π : Type} [BasicKVStore π]

/-- A call, with the records it returns. -/
def perform : StreamCall → EStateM Panic (StreamingRoot π) (List StoreKVPair)
  | write name w => updating (fun rs => rs.write name w) []
  | pop order => fun rs => .ok (rs.popStateCache order).1 (rs.popStateCache order).2

/-- The call without the order. -/
def plain : StreamCall → Option (Bytes × CommitWrite)
  | write name w => some (name, w)
  | pop _ => none

end StreamCall

/-! ### What a write does -/

/-- What a listener has recorded. -/
def cachedIn (listeners : GoMap Bytes (Option MemoryListener)) (name : Bytes) : List StoreKVPair :=
  match listeners.lookup name with
  | some (some ls) => ls.stateCache
  | _ => []

namespace StoreKVPair

/-- What a store has after a recorded write. -/
def apply (f : Bytes → Slice) (r : StoreKVPair) : Bytes → Slice := fun k =>
  if k = r.key then if r.delete then none else r.value else f k

/-- What a store has after recorded writes, from the first to the last. -/
def replay (records : List StoreKVPair) (f : Bytes → Slice) : Bytes → Slice := records.foldl apply f

end StoreKVPair

open StoreKVPair (replay storeKey)

namespace StreamingRoot

variable {π : Type} {rs rs' : StreamingRoot π} {name name' : Bytes} {w : CommitWrite}
  {names : List Bytes}

/-- A listener is added to a name that has none, and has recorded nothing. -/
theorem addListener_spec (rs : StreamingRoot π) (key name : Bytes) :
    cachedIn (rs.addListener key).listeners name = cachedIn rs.listeners name ∧
      ((rs.addListener key).listeningEnabled name = true ↔
        name = key ∨ rs.listeningEnabled name = true) := by
  have hadded : cachedIn rs.listeners key = [] →
      cachedIn (rs.listeners.insert key (some .new)) name = cachedIn rs.listeners name ∧
        (listeningEnabled { rs with listeners := rs.listeners.insert key (some .new) } name = true ↔
          name = key ∨ rs.listeningEnabled name = true) := by
    intro hnone
    unfold cachedIn listeningEnabled at *
    rw [lookup_insert_ite]
    by_cases hname : name = key
    · subst hname
      rw [if_pos rfl, hnone]
      exact ⟨rfl, iff_of_true rfl (.inl rfl)⟩
    · rw [if_neg hname]
      exact ⟨rfl, (or_iff_right hname).symm⟩
  unfold addListener
  cases hkey : rs.listeners.lookup key with
  | none => exact hadded (by rw [cachedIn, hkey])
  | some ls =>
    cases ls with
    | none => exact hadded (by rw [cachedIn, hkey])
    | some ls =>
      refine ⟨rfl, (or_iff_right_of_imp ?_).symm⟩
      rintro rfl
      rw [listeningEnabled, hkey]
      rfl

/-- Adding listeners enables them and caches nothing. -/
theorem addListeners_spec (keys : List Bytes) (rs : StreamingRoot π) (name : Bytes) :
    cachedIn (rs.addListeners keys).listeners name = cachedIn rs.listeners name ∧
      ((rs.addListeners keys).listeningEnabled name = true ↔
        name ∈ keys ∨ rs.listeningEnabled name = true) := by
  induction keys generalizing rs with
  | nil => exact ⟨rfl, (or_iff_right List.not_mem_nil).symm⟩
  | cons key keys ih =>
    have hround := rs.addListener_spec key name
    have hrest := ih (rs.addListener key)
    rw [hround.1, hround.2] at hrest
    rw [List.mem_cons, or_comm (a := name = key), or_assoc]
    exact hrest

/-- What a mounted store has. -/
def contentsOf [LawfulBasicKVStore π] (rs : StreamingRoot π) (name : Bytes) : Bytes → Slice :=
  match rs.stores.lookup name with
  | some store => contents store
  | none => fun _ => none

/-- The record of a write that returns, if the store is listened to. -/
def made (rs : StreamingRoot π) (name : Bytes) (w : CommitWrite) : List StoreKVPair :=
  if rs.listeningEnabled name then [w.record name] else []

/-- What `GetKVStore` can return. -/
theorem exists_of_getKVStore {got : GotStore π} (h : rs.getKVStore name = .ok got) :
    ∃ store, rs.stores.lookup name = some store ∧
      ((∃ ls, rs.listeners.lookup name = some (some ls) ∧ got = .listened ⟨store, ls, name⟩) ∨
        rs.listeningEnabled name = false ∧ got = .mounted store) := by
  unfold getKVStore at h
  unfold listeningEnabled
  cases hstore : rs.stores.lookup name with
  | none => rw [hstore] at h; cases h
  | some store =>
    rw [hstore] at h
    cases hls : rs.listeners.lookup name with
    | none =>
      rw [hls] at h
      exact ⟨store, rfl, .inr ⟨rfl, (Except.ok.inj h).symm⟩⟩
    | some ls =>
      rw [hls] at h
      cases ls with
      | none => exact ⟨store, rfl, .inr ⟨rfl, (Except.ok.inj h).symm⟩⟩
      | some ls => exact ⟨store, rfl, .inl ⟨ls, rfl, (Except.ok.inj h).symm⟩⟩

theorem withKey_made_of_ne (h : name' ≠ name) : withKey storeKey name' (rs.made name w) = [] := by
  refine withKey_of_forall_ne fun r hr => ?_
  unfold made at hr
  split at hr
  · rw [List.mem_singleton.mp hr, w.storeKey_record]
    exact Ne.symm h
  · cases hr

section Write

variable [BasicKVStore π]

/-- **What a write can do**: it was made in the mounted store, and a listener has recorded it. -/
theorem exists_of_write (h : rs.write name w = .ok rs') :
    ∃ store store', rs.stores.lookup name = some store ∧ w.onStore store = .ok store' ∧
      rs'.stores = rs.stores.insert name store' ∧
      ((∃ ls, rs.listeners.lookup name = some (some ls) ∧ rs'.listeners =
          rs.listeners.insert name (some ⟨ls.stateCache ++ [w.record name]⟩)) ∨
        rs.listeningEnabled name = false ∧ rs'.listeners = rs.listeners) := by
  unfold write at h
  obtain ⟨got, hgot, h⟩ := except_bind_eq_ok.mp h
  obtain ⟨got', hwrite, h⟩ := except_bind_eq_ok.mp h
  obtain rfl := Except.ok.inj h
  obtain ⟨store, hstore, ⟨ls, hls, rfl⟩ | ⟨hls, rfl⟩⟩ := exists_of_getKVStore hgot
  · obtain ⟨store', hw, h⟩ := except_bind_eq_ok.mp hwrite
    obtain rfl := Except.ok.inj h
    obtain ⟨parent, hparent, rfl⟩ := ListenStore.exists_of_onStore hw
    exact ⟨store, parent, hstore, hparent, rfl, .inl ⟨ls, hls, rfl⟩⟩
  · obtain ⟨store', hw, h⟩ := except_bind_eq_ok.mp hwrite
    obtain rfl := Except.ok.inj h
    exact ⟨store, store', hstore, hw, rfl, .inr ⟨hls, rfl⟩⟩

/-- A write does not change who is listened to. -/
theorem listeningEnabled_write (h : rs.write name w = .ok rs') (name' : Bytes) :
    rs'.listeningEnabled name' = rs.listeningEnabled name' := by
  obtain ⟨store, store', -, -, -, ⟨ls, hls, hrs'⟩ | ⟨-, hrs'⟩⟩ := exists_of_write h
  · unfold listeningEnabled
    rw [hrs', lookup_insert_ite]
    by_cases hname : name' = name
    · rw [if_pos hname, hname, hls]
      rfl
    · rw [if_neg hname]
  · unfold listeningEnabled
    rw [hrs']

/-- The listener of the store has one more record. -/
theorem cachedIn_write (h : rs.write name w = .ok rs') (name' : Bytes) :
    cachedIn rs'.listeners name' = cachedIn rs.listeners name' ++
      withKey storeKey name' (rs.made name w) := by
  obtain ⟨store, store', -, -, -, ⟨ls, hls, hrs'⟩ | ⟨hfalse, hrs'⟩⟩ := exists_of_write h
  · by_cases hname : name' = name
    · subst hname
      have hlisten : rs.listeningEnabled name' = true := by rw [listeningEnabled, hls]; rfl
      unfold cachedIn
      rw [hrs', AList.lookup_insert, hls, made, if_pos hlisten,
        withKey_cons_of_eq (w.storeKey_record name')]
      rfl
    · unfold cachedIn
      rw [hrs', lookup_insert_ite, if_neg hname, withKey_made_of_ne hname, List.append_nil]
  · rw [hrs', made, if_neg (Bool.eq_false_iff.mp hfalse)]
    exact (List.append_nil _).symm

end Write

/-- **The record of a write says what it did.** -/
theorem contentsOf_write [LawfulBasicKVStore π] [LawfulSet π] [LawfulDelete π]
    (h : rs.write name w = .ok rs') (hlisten : rs.listeningEnabled name' = true) :
    rs'.contentsOf name' =
      replay (withKey storeKey name' (rs.made name w)) (rs.contentsOf name') := by
  obtain ⟨store, store', hstore, hw, hrs', -⟩ := exists_of_write h
  unfold contentsOf
  rw [hrs', lookup_insert_ite]
  by_cases heq : name' = name
  · subst heq
    rw [if_pos rfl, hstore, made, if_pos hlisten, withKey_cons_of_eq (w.storeKey_record name')]
    funext k
    have hcontents := CommitWrite.contents_onStore hw k
    cases w with
    | set key value => exact hcontents
    | delete key => exact hcontents
  · rw [if_neg heq, withKey_made_of_ne heq]
    rfl

/-! ### What a pop does -/

/-- One round collects what the listener of a name has recorded, and empties it. -/
theorem popRound_spec (collected : List StoreKVPair)
    (listeners : GoMap Bytes (Option MemoryListener)) (name : Bytes) :
    (popRound (collected, listeners) name).1 = collected ++ cachedIn listeners name ∧
      ∀ name', (popRound (collected, listeners) name).2.lookup name' =
        if name' = name then (listeners.lookup name').map (Option.map fun _ => .new)
        else listeners.lookup name' := by
  unfold popRound cachedIn
  -- without a listener the round does nothing
  cases hname : listeners.lookup name with
  | none => exact ⟨(List.append_nil _).symm, eq_ite_of_eq (by rw [hname]; rfl)⟩
  | some ls =>
    cases ls with
    | none => exact ⟨(List.append_nil _).symm, eq_ite_of_eq (by rw [hname]; rfl)⟩
    | some ls =>
      refine ⟨rfl, fun name' => ?_⟩
      rw [lookup_insert_ite]
      split
      · next heq => rw [heq, hname]; rfl
      · rfl

/-- The rounds over a list of names collect what their listeners have recorded, and empty them. -/
theorem foldl_popRound (hnames : names.Nodup) (collected : List StoreKVPair)
    (listeners : GoMap Bytes (Option MemoryListener)) :
    (names.foldl popRound (collected, listeners)).1 =
        collected ++ names.flatMap (cachedIn listeners) ∧
      ∀ name, (names.foldl popRound (collected, listeners)).2.lookup name =
        if name ∈ names then (listeners.lookup name).map (Option.map fun _ => .new)
        else listeners.lookup name := by
  induction names generalizing collected listeners with
  | nil => exact ⟨(List.append_nil _).symm, fun name => (if_neg List.not_mem_nil).symm⟩
  | cons n names ih =>
    rw [List.nodup_cons] at hnames
    obtain ⟨hround, hlookup⟩ := popRound_spec collected listeners n
    obtain ⟨hcollected, hrest⟩ := ih hnames.2 (popRound (collected, listeners) n).1
      (popRound (collected, listeners) n).2
    have hsame : ∀ name ∈ names, cachedIn (popRound (collected, listeners) n).2 name =
        cachedIn listeners name := by
      intro name hname
      have hne : name ≠ n := fun heq => hnames.1 (heq ▸ hname)
      rw [cachedIn, hlookup, if_neg hne, cachedIn]
    rw [List.foldl_cons]
    refine ⟨?_, fun name => ?_⟩
    · rw [hcollected, hround, List.flatMap_cons, List.append_assoc, List.flatMap_congr hsame]
    · rw [hrest, hlookup]
      by_cases heq : name = n
      · subst heq
        rw [if_neg hnames.1, if_pos rfl, if_pos List.mem_cons_self]
      · rw [if_neg heq]
        simp only [List.mem_cons, heq, false_or]

/-- Every listener has recorded writes to its own store. -/
def KeyedByStore (rs : StreamingRoot π) : Prop :=
  ∀ name, ∀ r ∈ cachedIn rs.listeners name, r.storeKey = name

/-- What is collected for one store is what its listener has recorded. -/
theorem withKey_flatMap_cachedIn (h : rs.KeyedByStore) (hnames : names.Nodup) (name : Bytes) :
    withKey storeKey name (names.flatMap (cachedIn rs.listeners)) =
      if name ∈ names then cachedIn rs.listeners name else [] := by
  induction names with
  | nil => rw [if_neg List.not_mem_nil]; rfl
  | cons n names ih =>
    rw [List.nodup_cons] at hnames
    rw [List.flatMap_cons, withKey_append, ih hnames.2]
    by_cases heq : n = name
    · subst heq
      rw [withKey_of_forall (h n), if_neg hnames.1, if_pos List.mem_cons_self, List.append_nil]
    · rw [withKey_of_forall_ne fun r hr => (h n r hr).trans_ne heq, List.nil_append]
      simp only [List.mem_cons, Ne.symm heq, false_or]

variable (order : Traversal Bytes (Option MemoryListener))

theorem mem_visited {name : Bytes} :
    name ∈ (order.visit rs.listeners).map Sigma.fst ↔ name ∈ rs.listeners :=
  ((order.perm rs.listeners).map Sigma.fst).mem_iff

/-- What a pop returns: all that was recorded, sorted by the names of the stores. -/
theorem fst_popStateCache : (rs.popStateCache order).1 = sortBy storeKey
    (((order.visit rs.listeners).map Sigma.fst).flatMap (cachedIn rs.listeners)) := by
  dsimp only [popStateCache]
  rw [(foldl_popRound (order.nodup_visit rs.listeners) [] rs.listeners).1, List.nil_append]

/-- **What a pop returns of one store** is what its listener has recorded. -/
theorem withKey_popStateCache (h : rs.KeyedByStore) (name : Bytes) :
    withKey storeKey name (rs.popStateCache order).1 = cachedIn rs.listeners name := by
  rw [fst_popStateCache, withKey_sortBy, withKey_flatMap_cachedIn h (order.nodup_visit _)]
  split
  · rfl
  · next hname =>
    rw [mem_visited] at hname
    rw [cachedIn, AList.lookup_eq_none.mpr hname]

/-- The listeners after a pop: the same, and empty. -/
theorem lookup_popStateCache (name : Bytes) :
    (rs.popStateCache order).2.listeners.lookup name =
      (rs.listeners.lookup name).map (Option.map fun _ => .new) := by
  dsimp only [popStateCache]
  rw [(foldl_popRound (order.nodup_visit rs.listeners) [] rs.listeners).2]
  split
  · rfl
  · next hname =>
    rw [mem_visited] at hname
    rw [AList.lookup_eq_none.mpr hname]
    rfl

/-- Nothing is left in the cache. -/
theorem cachedIn_popStateCache (name : Bytes) :
    cachedIn (rs.popStateCache order).2.listeners name = [] := by
  rw [cachedIn, lookup_popStateCache]
  cases rs.listeners.lookup name with
  | none => rfl
  | some ls => cases ls <;> rfl

theorem listeningEnabled_popStateCache (name : Bytes) :
    (rs.popStateCache order).2.listeningEnabled name = rs.listeningEnabled name := by
  rw [listeningEnabled, lookup_popStateCache, listeningEnabled]
  cases rs.listeners.lookup name with
  | none => rfl
  | some ls => cases ls <;> rfl

end StreamingRoot

/-! ### Whole runs -/

namespace StreamingRoot

variable {π : Type} {rs rs' : StreamingRoot π}

/-- The root store after a write, which leaves it as it is when it panics. -/
def afterWrite [BasicKVStore π] (rs : StreamingRoot π) (name : Bytes) (w : CommitWrite) :
    StreamingRoot π :=
  match rs.write name w with
  | .ok rs' => rs'
  | .error _ => rs

/-- The root store after a list of writes. -/
def afterWrites [BasicKVStore π] (rs : StreamingRoot π) :
    List (Bytes × CommitWrite) → StreamingRoot π
  | [] => rs
  | (name, w) :: writes => (rs.afterWrite name w).afterWrites writes

/-- The records of those of the writes that return, of stores that are listened to, from the first
to the last. -/
def writesMade [BasicKVStore π] (rs : StreamingRoot π) :
    List (Bytes × CommitWrite) → List StoreKVPair
  | [] => []
  | (name, w) :: writes =>
    match rs.write name w with
    | .ok rs' => rs.made name w ++ rs'.writesMade writes
    | .error _ => rs.writesMade writes

/-- What a write leaves. -/
theorem snd_outcome_write [BasicKVStore π] (rs : StreamingRoot π) (name : Bytes) (w : CommitWrite) :
    (outcome (StreamCall.perform (.write name w)) rs).2 = rs.afterWrite name w := by
  unfold afterWrite
  cases h : rs.write name w with
  | ok rs' => rw [StreamCall.perform, outcome_updating_of_ok h]
  | error e => rw [StreamCall.perform, outcome_updating_of_error h]

/-- Writes after other calls. -/
theorem snd_outcomes_writes [BasicKVStore π] (calls : List StreamCall)
    (writes : List (Bytes × CommitWrite)) (rs : StreamingRoot π) :
    (outcomes StreamCall.perform (calls ++ writes.map fun w => .write w.1 w.2) rs).2 =
      (outcomes StreamCall.perform calls rs).2.afterWrites writes := by
  induction calls generalizing rs with
  | cons call calls ih => exact ih _
  | nil =>
    change (outcomes StreamCall.perform (writes.map fun w => .write w.1 w.2) rs).2 =
      rs.afterWrites writes
    induction writes generalizing rs with
    | nil => rfl
    | cons write writes ih =>
      rw [afterWrites, ← snd_outcome_write]
      exact ih _

/-- **The listeners record what was written.** -/
theorem cachedIn_afterWrites [BasicKVStore π] (writes : List (Bytes × CommitWrite))
    (rs : StreamingRoot π) (name : Bytes) :
    cachedIn (rs.afterWrites writes).listeners name = cachedIn rs.listeners name ++
      withKey storeKey name (rs.writesMade writes) := by
  induction writes generalizing rs with
  | nil => exact (List.append_nil _).symm
  | cons write writes ih =>
    obtain ⟨name', w⟩ := write
    rw [afterWrites, afterWrite, writesMade]
    cases h : rs.write name' w with
    | error e => exact ih rs
    | ok rs' => rw [ih, cachedIn_write h, withKey_append, List.append_assoc]

/-- **What was recorded turns what a store had into what it has.** -/
theorem contentsOf_afterWrites [LawfulBasicKVStore π] [LawfulSet π] [LawfulDelete π]
    (writes : List (Bytes × CommitWrite)) {rs : StreamingRoot π} {name : Bytes}
    (h : rs.listeningEnabled name = true) :
    (rs.afterWrites writes).contentsOf name =
      replay (withKey storeKey name (rs.writesMade writes)) (rs.contentsOf name) := by
  induction writes generalizing rs with
  | nil => rfl
  | cons write writes ih =>
    obtain ⟨name', w⟩ := write
    rw [afterWrites, afterWrite, writesMade]
    cases hw : rs.write name' w with
    | error e => exact ih h
    | ok rs' =>
      rw [ih ((listeningEnabled_write hw name).trans h), contentsOf_write hw h, withKey_append,
        replay, replay, replay, List.foldl_append]

/-! ### The order of the listeners -/

/-- Two root stores that differ at most in the order of their listeners. -/
def SameStreams (rs rs' : StreamingRoot π) : Prop :=
  rs.stores = rs'.stores ∧ ∀ name, rs.listeners.lookup name = rs'.listeners.lookup name

/-- A write keeps the streams the same. -/
theorem SameStreams.write [BasicKVStore π] (h : rs.SameStreams rs') (name : Bytes)
    (w : CommitWrite) : (rs.afterWrite name w).SameStreams (rs'.afterWrite name w) := by
  have hgot : rs'.getKVStore name = rs.getKVStore name := by
    unfold getKVStore
    rw [h.1, h.2]
  have hput : ∀ got, (rs.put name got).SameStreams (rs'.put name got) := by
    intro got
    cases got with
    | mounted store => exact ⟨by rw [put, put, h.1], h.2⟩
    | listened store =>
      refine ⟨by rw [put, put, h.1], fun name' => ?_⟩
      rw [put, put, lookup_insert_ite, lookup_insert_ite, h.2]
  unfold afterWrite StreamingRoot.write
  rw [hgot]
  cases rs.getKVStore name with
  | error e => exact h
  | ok got =>
    dsimp only [bind, Except.bind]
    cases got.write w with
    | error e => exact h
    | ok got' => exact hput got'

theorem SameStreams.popStateCache (h : rs.SameStreams rs')
    (order order' : Traversal Bytes (Option MemoryListener)) :
    (rs.popStateCache order).2.SameStreams (rs'.popStateCache order').2 := by
  refine ⟨h.1, fun name => ?_⟩
  rw [lookup_popStateCache, lookup_popStateCache, h.2]

/-- **The order does not show** in what a pop returns. -/
theorem SameStreams.fst_popStateCache (h : rs.SameStreams rs') (hrs : rs.KeyedByStore)
    (hrs' : rs'.KeyedByStore) (order order' : Traversal Bytes (Option MemoryListener)) :
    (rs.popStateCache order).1 = (rs'.popStateCache order').1 := by
  refine eq_of_withKey_eq (pairwise_sortBy _ _) (pairwise_sortBy _ _) fun name => ?_
  rw [withKey_popStateCache order hrs, withKey_popStateCache order' hrs', cachedIn, h.2, cachedIn]

/-- A write goes to the list of its store. -/
theorem KeyedByStore.write [BasicKVStore π] (h : rs.KeyedByStore) (name : Bytes) (w : CommitWrite) :
    (rs.afterWrite name w).KeyedByStore := by
  unfold afterWrite
  cases hw : rs.write name w with
  | error e => exact h
  | ok rs' =>
    intro name' r hr
    rw [cachedIn_write hw, List.mem_append] at hr
    rcases hr with hr | hr
    · exact h name' r hr
    · exact (mem_withKey.mp hr).2

theorem KeyedByStore.popStateCache (rs : StreamingRoot π)
    (order : Traversal Bytes (Option MemoryListener)) :
    (rs.popStateCache order).2.KeyedByStore := by
  intro name r hr
  rw [cachedIn_popStateCache] at hr
  cases hr

/-- **The invariant of a run.** -/
theorem KeyedByStore.outcomes [BasicKVStore π] (h : rs.KeyedByStore) (calls : List StreamCall) :
    (outcomes StreamCall.perform calls rs).2.KeyedByStore := by
  refine outcomes_invariant (fun call _ rs h => ?_) h
  cases call with
  | write name w => rw [snd_outcome_write]; exact h.write name w
  | pop order => exact .popStateCache rs order

/-- Runs that differ in the orders only. -/
theorem SameStreams.outcomes [BasicKVStore π] {calls calls' : List StreamCall}
    (hcalls : calls.map StreamCall.plain = calls'.map StreamCall.plain) (h : rs.SameStreams rs') :
    (outcomes StreamCall.perform calls rs).2.SameStreams
      (outcomes StreamCall.perform calls' rs').2 := by
  induction calls generalizing calls' rs rs' with
  | nil =>
    obtain rfl := List.map_eq_nil_iff.mp hcalls.symm
    exact h
  | cons call calls ih =>
    cases calls' with
    | nil => cases hcalls
    | cons call' calls' =>
      obtain ⟨hcall, hrest⟩ := List.cons.inj hcalls
      have hfirst : (outcome call.perform rs).2.SameStreams (outcome call'.perform rs').2 := by
        cases call with
        | write name w =>
          cases call' with
          | pop order' => cases hcall
          | write name' w' =>
            cases hcall
            rw [snd_outcome_write, snd_outcome_write]
            exact h.write name w
        | pop order =>
          cases call' with
          | write name' w' => cases hcall
          | pop order' => exact h.popStateCache order order'
      have hruns := ih hrest hfirst
      exact hruns

/-- Nothing is recorded at the start, and at a pop. -/
theorem cachedIn_at_pop [BasicKVStore π] {before : List StreamCall}
    (hbefore : before = [] ∨ ∃ calls order, before = calls ++ [.pop order])
    (h : ∀ name, cachedIn rs.listeners name = []) (name : Bytes) :
    cachedIn (outcomes StreamCall.perform before rs).2.listeners name = [] := by
  obtain rfl | ⟨calls, order, rfl⟩ := hbefore
  · exact h name
  · rw [snd_outcomes_concat]
    exact cachedIn_popStateCache order name

/-- No call adds a listener. -/
theorem listeningEnabled_outcomes [BasicKVStore π] (calls : List StreamCall) (name : Bytes) :
    (outcomes StreamCall.perform calls rs).2.listeningEnabled name = rs.listeningEnabled name := by
  let Same : StreamingRoot π → Prop := fun s => s.listeningEnabled name = rs.listeningEnabled name
  refine outcomes_invariant (I := Same) (fun call _ s h => ?_) rfl
  cases call with
  | pop order => exact (listeningEnabled_popStateCache order name).trans h
  | write name' w =>
    rw [snd_outcome_write]
    unfold afterWrite
    cases hw : s.write name' w with
    | error e => exact h
    | ok s' => exact (listeningEnabled_write hw name).trans h

end StreamingRoot

open StreamingRoot in
/-- **State streaming is faithful.** A root store listens to the stores `keys`. In a run that has
just begun or just popped, writes are made, and then the listeners are popped, in whatever order
they are met. The pop returns the writes that were made, once each, by the names of the stores and
for one store by time; it returns the same in every run that differs in the orders only; and what
it returns of a store turns what the store had into what it has. -/
theorem popStateCache_faithful {π : Type} [LawfulBasicKVStore π] [LawfulSet π] [LawfulDelete π]
    (stores : GoMap Bytes π) (keys : List Bytes) {before : List StreamCall}
    (hbefore : before = [] ∨ ∃ calls order, before = calls ++ [.pop order])
    (writes : List (Bytes × CommitWrite)) (order : Traversal Bytes (Option MemoryListener)) :
    let start := (⟨stores, ∅⟩ : StreamingRoot π).addListeners keys
    let calls := before ++ writes.map fun w => .write w.1 w.2
    let last := (outcomes StreamCall.perform before start).2
    let now := (outcomes StreamCall.perform calls start).2
    let popped := (now.popStateCache order).1
    popped.Perm (last.writesMade writes) ∧
      (popped.Pairwise fun r r' => r.storeKey ≤ r'.storeKey) ∧
      (∀ name, withKey StoreKVPair.storeKey name popped =
        withKey StoreKVPair.storeKey name (last.writesMade writes)) ∧
      (∀ calls' order', calls'.map StreamCall.plain = calls.map StreamCall.plain →
        ((outcomes StreamCall.perform calls' start).2.popStateCache order').1 = popped) ∧
      ∀ name ∈ keys, now.contentsOf name =
        replay (withKey StoreKVPair.storeKey name popped) (last.contentsOf name) := by
  intro start calls last now popped
  have hempty : ∀ name, cachedIn start.listeners name = [] := fun name =>
    (addListeners_spec keys _ name).1
  have hkeyed : start.KeyedByStore := fun name r hr => by rw [hempty] at hr; cases hr
  have hnow : now = last.afterWrites writes := snd_outcomes_writes before writes start
  have hpopped : ∀ name, withKey StoreKVPair.storeKey name popped =
      withKey StoreKVPair.storeKey name (last.writesMade writes) := by
    intro name
    have hcached : cachedIn now.listeners name =
        withKey StoreKVPair.storeKey name (last.writesMade writes) := by
      rw [hnow, cachedIn_afterWrites, cachedIn_at_pop hbefore hempty, List.nil_append]
    exact (withKey_popStateCache order (hkeyed.outcomes calls) name).trans hcached
  have hsorted : popped = sortBy StoreKVPair.storeKey (last.writesMade writes) :=
    eq_of_withKey_eq (pairwise_sortBy _ _) (pairwise_sortBy _ _) fun name => by
      rw [hpopped, withKey_sortBy]
  refine ⟨hsorted ▸ perm_sortBy _ _, pairwise_sortBy _ _, hpopped, ?_, ?_⟩
  · intro calls' order' hplain
    have hsame : (outcomes StreamCall.perform calls' start).2.SameStreams now :=
      SameStreams.outcomes hplain ⟨rfl, fun _ => rfl⟩
    exact hsame.fst_popStateCache (hkeyed.outcomes calls') (hkeyed.outcomes calls) order' order
  · intro name hname
    have hlisten : last.listeningEnabled name = true := by
      rw [listeningEnabled_outcomes]
      exact (addListeners_spec keys _ name).2.mpr (.inl hname)
    rw [hpopped, hnow]
    exact contentsOf_afterWrites writes hlisten

/-- Two stores, of which the second one is written first. -/
theorem popStateCache_faithful_of_twoStores :
    let stores : GoMap Bytes DbAdapter := (AList.singleton [0x61] .empty).insert [0x62] .empty
    ((outcomes StreamCall.perform
        [.write [0x62] (.set [1] (some [2])), .write [0x61] (.set [1] (some [3]))]
        ((⟨stores, ∅⟩ : StreamingRoot DbAdapter).addListeners [[0x61], [0x62]])).2.popStateCache
          .listed).1.Perm [⟨[0x62], false, [1], some [2]⟩, ⟨[0x61], false, [1], some [3]⟩] := by
  intro stores
  have hmade : ((⟨stores, ∅⟩ : StreamingRoot DbAdapter).addListeners [[0x61], [0x62]]).writesMade
      [([0x62], .set [1] (some [2])), ([0x61], .set [1] (some [3]))] =
      [⟨[0x62], false, [1], some [2]⟩, ⟨[0x61], false, [1], some [3]⟩] := by
    decide +kernel
  rw [← hmade]
  exact (popStateCache_faithful stores [[0x61], [0x62]] (.inl rfl)
    [([0x62], .set [1] (some [2])), ([0x61], .set [1] (some [3]))] .listed).1

end MelodiaStore
