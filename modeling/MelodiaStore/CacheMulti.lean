import MelodiaStore.CacheOverlay

/-!
# Branches of the Multi Store

`cachemulti.Store`: a branch has a cache store over every store of the multi store. It keeps them
under the keys of the stores, which are pointers, and finds a store by the name of the key it is
asked for, in the map `keys`. `ExpandStores` adds stores to a branch. No two stores share a parent.
Tracing is left out, and so is the branch of the database, whose cache nothing fills.

## Main results

* `CacheMulti.faithful_branch`: so is every sequence of calls, and `Write` reaches all the parents.
-/

namespace MelodiaStore

/-- A `types.StoreKey`: two keys can have the same name. -/
structure StoreKey where
  id : ℕ
  name : Bytes
  deriving DecidableEq

/-- `cachemulti.Store`; a name is bound to a key of that name. -/
structure CacheMulti (β : Type) where
  stores : GoMap StoreKey (CacheKVStore β)
  keys : GoMap Bytes StoreKey
  named : ∀ name key, keys.lookup name = some key → key.name = name

/-- A call of a branch: a call of the store that `GetKVStore` returns, or one of its own. -/
inductive MultiCall (β : Type)
  | on (key : StoreKey) (call : CacheCall)
  | write (order : Traversal StoreKey (CacheKVStore β)) (entries : Traversal Bytes CValue)
  | expandStores (order : Traversal StoreKey (CacheKVStore β))
      (newStores : GoMap StoreKey (CacheKVStore β))

/-- A traversal is in the scope of a cache store. -/
def MultiCall.InScope {β : Type} : MultiCall β → Prop
  | on _ call => call.InScope
  | _ => True

namespace CacheMulti

variable {β : Type}

/-- `NewFromKVStore`. -/
def newFromKVStore (stores : GoMap StoreKey β) (keys : GoMap Bytes StoreKey)
    (named : ∀ name key, keys.lookup name = some key → key.name = name) : CacheMulti β :=
  ⟨mapValues (fun _ store => CacheKVStore.newStore store) stores, keys, named⟩

/-- The panic of `GetKVStore`, which prints the key for `%v`. -/
def unregistered : Panic := .text "kv store with key %v has not been registered in stores"

/-- What `GetKVStore` finds under a name: a store, with the key it is kept under. -/
def find (cms : CacheMulti β) (name : Bytes) : Option (StoreKey × CacheKVStore β) :=
  (cms.keys.lookup name).bind fun key => (cms.stores.lookup key).map fun store => (key, store)

/-- Call a method of a store, which is kept under `key`. -/
def onStore {α : Type} (key : StoreKey) (store : CacheKVStore β) :
    EStateM Panic (CacheKVStore β) α → EStateM Panic (CacheMulti β) α :=
  zoom (fun _ => store) fun store cms => { cms with stores := cms.stores.insert key store }

/-- `Write`. -/
def write [BasicKVStore β] (order : Traversal StoreKey (CacheKVStore β))
    (entries : Traversal Bytes CValue) : EStateM Panic (CacheMulti β) PUnit := do
  forM (order.visit (← get).stores) fun e => onStore e.1 e.2 (CacheKVStore.write entries)

/-- One round of `ExpandStores`: a store is added when its name has none. -/
def expand (cms : CacheMulti β) (e : (_ : StoreKey) × CacheKVStore β) : CacheMulti β :=
  if (cms.find e.1.name).isSome then cms
  else
    { stores := cms.stores.insert e.1 e.2
      keys := cms.keys.insert e.1.name e.1
      named := fun name key h => by
        rw [lookup_insert_ite] at h
        split at h
        · next hname => rw [hname, ← Option.some.inj h]
        · exact cms.named name key h }

/-- Perform a call. -/
def perform [KVStore β] : MultiCall β → EStateM Panic (CacheMulti β) CacheAnswer
  | .on key call => do
    match (← get).find key.name with
    | none => throw unregistered
    | some (validKey, store) => onStore validKey store (CacheKVStore.perform call)
  | .write order entries => do
    write order entries
    pure .done
  | .expandStores order newStores => do
    modify fun cms => (order.visit newStores).foldl expand cms
    pure .done

/-! ### One plain map per name -/

variable [LawfulKVStore β]

/-- What a cache store and its parent hold. -/
def plain (store : CacheKVStore β) : Plain :=
  ⟨store.contents, LawfulBasicKVStore.contents store.parent⟩

/-- The map after a `Write`. -/
def written (p : Plain) : Plain := { p with base := p.live }

/-- The maps of the names that have a store. -/
def plains (cms : CacheMulti β) (name : Bytes) : Option Plain :=
  (cms.find name).map fun e => plain e.2

/-- What a call does to the maps, and what it answers. -/
def Step (call : MultiCall β) (m : Bytes → Option Plain) (r : Except Panic CacheAnswer)
    (m' : Bytes → Option Plain) : Prop :=
  match call with
  | .on key call => (m key.name).elim (r = .error unregistered ∧ m' = m) fun p =>
    ∃ p', Plain.Step call p r p' ∧ m' = Function.update m key.name (some p')
  | .write _ _ => r = .ok .done ∧ ∀ name, m' name = (m name).map written
  | .expandStores order newStores => r = .ok .done ∧ ∀ name, m' name = (m name).or
      (((order.visit newStores).find? (·.1.name = name)).map fun e => plain e.2)

/-- A store is seen under the name of its key only. -/
theorem plains_insert {cms cms' : CacheMulti β} {key : StoreKey} {store : CacheKVStore β}
    (hstores : cms'.stores = cms.stores.insert key store) (hkeys : ∀ name, cms'.keys.lookup name =
      if name = key.name then some key else cms.keys.lookup name) :
    cms'.plains = Function.update cms.plains key.name (some (plain store)) := by
  funext name
  rw [plains, find, Function.update_apply, hkeys, hstores]
  split
  · simp
  · next h =>
    rw [plains, find]
    cases hname : cms.keys.lookup name with
    | none => rfl
    | some k =>
      have hne : k ≠ key := fun heq => h (by rw [← cms.named name k hname, heq])
      simp [AList.lookup_insert_ne hne]

/-- **`Write`** leaves what every store of the branch holds in its parent. -/
theorem run_write (cms : CacheMulti β) (order : Traversal StoreKey (CacheKVStore β))
    (entries : Traversal Bytes CValue) : ∃ cms', (write order entries).run cms = .ok ⟨⟩ cms' ∧
      ∀ name, cms'.plains name = (cms.plains name).map written := by
  obtain ⟨cms', hrun, hkeys, hlook⟩ := forM_rewrites (s := cms) (l := order.visit cms.stores)
    (fun t : CacheMulti β => t.keys = cms.keys) (fun t k => (t.stores.lookup k).map plain) Sigma.fst
    (fun k _ => (cms.stores.lookup k).map fun store => written (plain store))
    (fun _ _ => rfl) (f := fun e => onStore e.1 e.2 (CacheKVStore.write entries))
    (fun e he t ht => by
      obtain ⟨p, hrun, hbase, hlive⟩ := e.2.run_write entries
      refine ⟨_, run_zoom_eq_ok.mpr ⟨_, hrun, rfl⟩, ht, fun k => ?_⟩
      rw [lookup_insert_ite]
      split
      · next h =>
        rw [h, mem_entries_iff.mp (order.mem_visit.mp he), Option.map_some, plain, hlive, hbase]
        rfl
      · rfl) rfl
  refine ⟨cms', hrun, fun name => ?_⟩
  rw [plains, plains, find, find, hkeys]
  cases cms.keys.lookup name with
  | none => rfl
  | some key =>
    have hkey := hlook key
    split at hkey
    · simpa [Function.comp_def] using hkey
    · next hnot =>
      have hnone : cms.stores.lookup key = none := AList.lookup_eq_none.mpr fun hmem =>
        hnot (((order.perm _).map _).mem_iff.mpr hmem)
      simpa [hnone] using hkey

/-- **`ExpandStores`**, by induction on the new stores: a name that has a store keeps it, and
another one gets the first store of that name. -/
theorem plains_foldl_expand (l : List ((_ : StoreKey) × CacheKVStore β)) (cms : CacheMulti β)
    (name : Bytes) : (l.foldl expand cms).plains name =
      (cms.plains name).or ((l.find? (·.1.name = name)).map fun e => plain e.2) := by
  induction l generalizing cms with
  | nil => simp
  | cons e l ih =>
    have hround : (cms.expand e).plains = if (cms.plains e.1.name).isSome then cms.plains
        else Function.update cms.plains e.1.name (some (plain e.2)) := by
      rw [plains, Option.isSome_map, expand]
      split
      · rfl
      · exact plains_insert rfl fun name => lookup_insert_ite ..
    rw [List.foldl_cons, ih, hround]
    by_cases hname : e.1.name = name
    · subst hname
      cases h : cms.plains e.1.name <;> simp [h]
    · rw [List.find?_cons_of_neg (by simpa using hname)]
      split
      · rfl
      · rw [Function.update_of_ne (Ne.symm hname)]

/-- **Every call is a step of the plain maps.** -/
theorem simulates_plains :
    Simulates (fun (cms : CacheMulti β) m => cms.plains = m) perform Step MultiCall.InScope := by
  rintro call cms m hscope rfl
  cases call with
  | on key call =>
    rw [perform, outcome_bind_ok (outcome_get cms)]
    cases hfind : cms.find key.name with
    | none =>
      refine ⟨cms.plains, ?_, rfl⟩
      rw [Step, plains, hfind]
      exact ⟨rfl, rfl⟩
    | some e =>
      obtain ⟨k, hk, hfound⟩ := Option.bind_eq_some_iff.mp hfind
      obtain ⟨store, hstore, rfl⟩ := Option.map_eq_some_iff.mp hfound
      obtain ⟨p, hstep, hp⟩ :=
        CacheKVStore.simulates_plain call store (plain store) hscope ⟨rfl, rfl⟩
      dsimp only
      rw [onStore, outcome_zoom]
      refine ⟨_, ?_, rfl⟩
      rw [Step, plains, hfind]
      refine ⟨p, hstep, ?_⟩
      have hname : k.name = key.name := cms.named key.name k hk
      have hplain : plain _ = p := congrArg₂ Plain.mk hp.live hp.base
      rw [plains_insert rfl fun name => ?_, hplain, hname]
      exact eq_ite_of_eq (f := cms.keys.lookup) (g := fun _ => some k) (hname ▸ hk) name
  | write order entries =>
    obtain ⟨cms', hrun, hplains⟩ := cms.run_write order entries
    rw [perform, outcome_bind_ok (outcome_of_ok hrun)]
    exact ⟨_, ⟨rfl, hplains⟩, rfl⟩
  | expandStores order newStores =>
    exact ⟨_, ⟨rfl, plains_foldl_expand (order.visit newStores) cms⟩, rfl⟩

/-- **A branch is a faithful overlay of all its stores.** From any state, every sequence of calls
that iterates over no reversed range and with no empty bound answers as one plain map per name does,
and at its end the maps are those of the branch. -/
theorem faithful_branch (cms : CacheMulti β) (calls : List (MultiCall β))
    (hscope : ∀ call ∈ calls, call.InScope) :
    Allowed Step calls cms.plains (outcomes perform calls cms).1
      (outcomes perform calls cms).2.plains := by
  obtain ⟨m, hallowed, rfl⟩ := simulates_plains.outcomes hscope rfl
  exact hallowed

/-- A store is added to an empty branch, gets a key, and is written back. -/
theorem faithful_branch_of_expand_set_write :
    ∃ calls : List (MultiCall DbAdapter), calls =
        [.expandStores .listed (AList.singleton ⟨0, [1]⟩ (.newStore .empty)),
          .on ⟨1, [1]⟩ (.set [2] (some [3])), .write .listed .listed] ∧
      (∀ call ∈ calls, call.InScope) ∧ ∃ cms, cms = newFromKVStore ∅ ∅ (by simp) ∧
        Allowed Step calls cms.plains (outcomes perform calls cms).1
          (outcomes perform calls cms).2.plains := by
  refine ⟨_, rfl, and_of_run ?_ fun hscope => ⟨_, rfl, faithful_branch _ _ hscope⟩⟩
  simp [MultiCall.InScope, CacheCall.InScope]

end CacheMulti

end MelodiaStore
