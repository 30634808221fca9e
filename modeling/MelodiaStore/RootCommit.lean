import MelodiaStore.CommitInfo

/-!
# Committing the Root Store

`WorkingHash` and `Commit` of `rootmulti.Store`, and `commitStores`, which commits the mounted
stores one after the other in the order of their names. The names of mounted stores are distinct
(`MountStoreWithDB` sees to it), and a store key is modelled by its name.

A mounted store is anything with the methods of `types.Committer`. `MountedStore` are the stores of
the repository: an `iavl.Store`, whose tree is a parameter, the adapter for databases, and the
transient and memory stores.

`WorkingHash` looks at the IAVL stores only, `commitStores` at all that are not transient or in
memory. The two differ in the database stores.

## Main results

* `workingHash_eq_commit_iff`: the working hash is the hash of the next commit if and only if no
  database store is mounted that is not about to be removed.
* `workingHash_eq_commit_fails`: a root store with one database store.
* `RootStore.replicas_agree`: the orders in which maps are met do not show in what is committed.
-/

namespace MelodiaStore

/-- `types.StoreType`. -/
inductive StoreType
  | multi
  | db
  | iavl
  | transient
  | memory
  | smt
  | persistent
  deriving DecidableEq

/-- The methods of a mounted store that a commit calls. -/
class Committer (σ : Type) where
  getStoreType : σ → StoreType
  lastCommitID : σ → CommitID
  workingHash : σ → Slice
  commit : σ → CommitID × σ

open Committer

/-! ### The stores of the repository -/

/-- `iavl.Store`: the version of its tree, what is in the tree, and what was in it at the versions
that were saved. -/
structure IavlStore (κ : Type) where
  version : ℤ
  working : κ
  saved : GoMap ℤ κ

/-- The mounted stores of the repository; the content of a store is in `κ`. -/
inductive MountedStore (κ : Type)
  | iavl (store : IavlStore κ)
  | db (content : κ)
  | transient (content : κ)
  | memory (content : κ)

/-- What is assumed of a tree: what it is when it is empty, and the hash of what is in it. -/
class TreeContent (κ : Type) where
  empty : κ
  treeHash : κ → Slice

namespace MountedStore

variable {κ : Type} [TreeContent κ]

/-- `commithash` of `rootmulti/dbadapter.go`. -/
def commithash : Slice := some (ascii "FAKE_HASH")

/-- `Tree.SaveVersion`, and `iavl.Store.Commit`, which returns what it returns. -/
def saveVersion (store : IavlStore κ) : CommitID × IavlStore κ :=
  let version := store.version + 1
  (⟨version, TreeContent.treeHash store.working⟩,
    { store with version, saved := store.saved.insert version store.working })

/-- `GetStoreType`. -/
def storeType : MountedStore κ → StoreType
  | iavl _ => .iavl
  | db _ => .db
  | transient _ => .transient
  | memory _ => .memory

/-- `LastCommitID`. That of an `iavl.Store` has no hash. -/
def lastID : MountedStore κ → CommitID
  | iavl store => ⟨store.version, none⟩
  | db _ => ⟨-1, commithash⟩
  | transient _ => ⟨0, none⟩
  | memory _ => ⟨0, none⟩

/-- `WorkingHash`. That of an `iavl.Store` is `nil`. -/
def working : MountedStore κ → Slice
  | iavl _ => none
  | db _ => commithash
  | transient _ => some []
  | memory _ => none

/-- `Commit`. A transient store is emptied. -/
def save : MountedStore κ → CommitID × MountedStore κ
  | iavl store => ((saveVersion store).1, iavl (saveVersion store).2)
  | db content => (⟨-1, commithash⟩, db content)
  | transient _ => (⟨0, none⟩, transient TreeContent.empty)
  | memory content => (⟨0, none⟩, memory content)

end MountedStore

instance instCommitterMountedStore {κ : Type} [TreeContent κ] : Committer (MountedStore κ) where
  getStoreType := MountedStore.storeType
  lastCommitID := MountedStore.lastID
  workingHash := MountedStore.working
  commit := MountedStore.save

/-! ### Committing the stores -/

section Commit

variable {σ : Type} [Committer σ]

/-- `keysFromStoreKeyMap`. -/
def keysFromStoreKeyMap (order : Traversal Bytes σ) (m : GoMap Bytes σ) : List Bytes :=
  ((order.visit m).map Sigma.fst).insertionSort (· ≤ ·)

/-- The order of `sort.SliceStable` in `commitStores` and `WorkingHash`. -/
def StoreInfo.Le (a b : StoreInfo) : Prop := a.name ≤ b.name

instance : DecidableRel StoreInfo.Le := fun a b => inferInstanceAs (Decidable (a.name ≤ b.name))

/-- `removalMap[key]`. -/
def removed (removalMap : GoMap Bytes Bool) (key : Bytes) : Bool :=
  (removalMap.lookup key).getD false

/-- The store is committed, unless it is at the version already. -/
def commitStore (version : ℤ) (store : σ) : CommitID × σ :=
  let last := lastCommitID store
  if version ≤ last.version then ({ last with version }, store) else commit store

/-- `storeType == types.StoreTypeTransient || storeType == types.StoreTypeMemory`. -/
def ephemeral (store : σ) : Bool :=
  getStoreType store == .transient || getStoreType store == .memory

/-- A round of the loop of `commitStores`. -/
def commitRound (version : ℤ) (removalMap : GoMap Bytes Bool)
    (acc : List StoreInfo × GoMap Bytes σ) (key : Bytes) : List StoreInfo × GoMap Bytes σ :=
  match acc.2.lookup key with
  | none => acc
  | some store =>
    let committed := commitStore version store
    let stores := acc.2.insert key committed.2
    if ephemeral store then (acc.1, stores)
    else if removed removalMap key then (acc.1, stores)
    else (acc.1 ++ [⟨key, committed.1⟩], stores)

/-- `commitStores`, which leaves the stores committed. -/
def commitStores (order : Traversal Bytes σ) (version : ℤ) (storeMap : GoMap Bytes σ)
    (removalMap : GoMap Bytes Bool) : CommitInfo × GoMap Bytes σ :=
  let storeKeys := keysFromStoreKeyMap order storeMap
  let done := storeKeys.foldl (commitRound version removalMap) ([], storeMap)
  (⟨version, done.1.insertionSort StoreInfo.Le⟩, done.2)

/-! ### The root store -/

/-- `rootmulti.Store`: the fields that `WorkingHash` and `Commit` use. -/
structure RootStore (σ : Type) where
  stores : GoMap Bytes σ
  removalMap : GoMap Bytes Bool
  lastCommitInfo : Option CommitInfo
  initialVersion : ℤ

namespace RootStore

variable {sha256 : Bytes → Digest}

/-- The info that `WorkingHash` makes of a store. -/
def workingStoreInfo (rs : RootStore σ) (key : Bytes) : Option StoreInfo :=
  match rs.stores.lookup key with
  | none => none
  | some store =>
    if getStoreType store ≠ .iavl then none
    else if removed rs.removalMap key then none
    else some ⟨key, ⟨0, workingHash store⟩⟩

/-- The commit info of `WorkingHash`. -/
def workingInfo (order : Traversal Bytes σ) (rs : RootStore σ) : CommitInfo :=
  ⟨0, ((keysFromStoreKeyMap order rs.stores).filterMap rs.workingStoreInfo).insertionSort
    StoreInfo.Le⟩

/-- `WorkingHash`. -/
def workingHash (comet : CometMerkle sha256) (order : Traversal Bytes σ)
    (order' : Traversal Bytes Slice) (rs : RootStore σ) : Except Panic Bytes :=
  (rs.workingInfo order).hash comet order'

/-- `rs.lastCommitInfo.GetVersion()`. -/
def lastVersion (rs : RootStore σ) : ℤ := (rs.lastCommitInfo.map CommitInfo.version).getD 0

/-- The version that `Commit` commits. -/
def nextVersion (rs : RootStore σ) : ℤ :=
  if rs.lastVersion = 0 ∧ rs.initialVersion > 1 then rs.initialVersion
  else int64 (rs.lastVersion + 1)

/-- `Commit`, without the pruning and the metadata. -/
def commit (comet : CometMerkle sha256) (order : Traversal Bytes σ)
    (order' : Traversal Bytes Slice) (order'' : Traversal Bytes Bool) (rs : RootStore σ) :
    Except Panic (CommitID × RootStore σ) := do
  let version := rs.nextVersion
  let committed := commitStores order version rs.stores rs.removalMap
  let hash ← committed.1.hash comet order'
  let stores := (order''.visit rs.removalMap).foldl (fun stores e => stores.erase e.1) committed.2
  return (⟨version, some hash⟩,
    { rs with stores, removalMap := ∅, lastCommitInfo := some committed.1 })

end RootStore

/-! ### The infos of the stores -/

variable {order : Traversal Bytes σ} {m : GoMap Bytes σ} {key : Bytes} {version : ℤ}
  {removalMap : GoMap Bytes Bool}

omit [Committer σ] in
/-- The names are those of the stores. -/
theorem mem_keysFromStoreKeyMap : key ∈ keysFromStoreKeyMap order m ↔ key ∈ m := by
  rw [keysFromStoreKeyMap, List.mem_insertionSort, ((order.perm m).map Sigma.fst).mem_iff]
  exact AList.mem_keys.symm

omit [Committer σ] in
/-- The names are visited in their order, each of them once. -/
theorem pairwise_keysFromStoreKeyMap (order : Traversal Bytes σ) (m : GoMap Bytes σ) :
    (keysFromStoreKeyMap order m).Pairwise (· < ·) := by
  have hnodup : (keysFromStoreKeyMap order m).Nodup :=
    (List.perm_insertionSort _ _).nodup_iff.mpr (order.nodup_visit m)
  exact (List.pairwise_insertionSort (· ≤ ·) _).and hnodup |>.imp fun h => lt_of_le_of_ne h.1 h.2

omit [Committer σ] in
/-- The order in which the map is traversed does not matter, only its keys do. -/
theorem keysFromStoreKeyMap_eq {m' : GoMap Bytes σ} (h : ∀ key, key ∈ m ↔ key ∈ m')
    (order order' : Traversal Bytes σ) :
    keysFromStoreKeyMap order m = keysFromStoreKeyMap order' m' := by
  refine eq_of_pairwise_of_asymm lt_asymm (pairwise_keysFromStoreKeyMap order m)
    (pairwise_keysFromStoreKeyMap order' m') fun key => ?_
  rw [mem_keysFromStoreKeyMap, mem_keysFromStoreKeyMap, h]

section Infos

variable {keys : List Bytes} {info : Bytes → Option StoreInfo}

section

variable (hkeys : keys.Pairwise (· < ·)) (hinfo : ∀ key si, info key = some si → si.name = key)
include hkeys hinfo

/-- Infos that are made in the order of the names are sorted by them. -/
theorem pairwise_infos : (keys.filterMap info).Pairwise fun a b => a.name < b.name := by
  refine List.Pairwise.filterMap info (fun key key' hlt si hsi si' hsi' => ?_) hkeys
  rwa [hinfo key si hsi, hinfo key' si' hsi']

/-- The sort of `commitStores` changes nothing. -/
theorem sort_infos : (keys.filterMap info).insertionSort StoreInfo.Le = keys.filterMap info :=
  ((pairwise_infos hkeys hinfo).imp le_of_lt).insertionSort_eq

/-- **The map of a commit info** has the hashes of the infos it was made of. -/
theorem lookup_toMap_infos (hall : ∀ key, key ∉ keys → info key = none) (version : ℤ)
    (key : Bytes) : (CommitInfo.mk version (keys.filterMap info)).toMap.lookup key =
      (info key).map StoreInfo.getHash := by
  have hnodup : ((keys.filterMap info).map StoreInfo.name).Nodup :=
    List.pairwise_map.mpr ((pairwise_infos hkeys hinfo).imp ne_of_lt)
  cases hkey : info key with
  | some si =>
    have hmem : key ∈ keys := by
      by_contra hnot
      rw [hall key hnot] at hkey
      cases hkey
    rw [← hinfo key si hkey]
    exact CommitInfo.lookup_toMap hnodup (List.mem_filterMap.mpr ⟨key, hmem, hkey⟩)
  | none =>
    rw [Option.map_none, AList.lookup_eq_none]
    intro hmem
    obtain ⟨si, hsi, rfl⟩ := CommitInfo.exists_of_mem_toMap hmem
    obtain ⟨key', -, hkey'⟩ := List.mem_filterMap.mp hsi
    rw [hinfo key' si hkey', hkey'] at hkey
    cases hkey

end

end Infos

/-- The info that `commitStores` makes of a store. -/
def commitStoreInfo (version : ℤ) (removalMap : GoMap Bytes Bool) (stores : GoMap Bytes σ)
    (key : Bytes) : Option StoreInfo :=
  match stores.lookup key with
  | none => none
  | some store =>
    if ephemeral store then none
    else if removed removalMap key then none
    else some ⟨key, (commitStore version store).1⟩

/-- An info is of a store that is not transient or in memory, and not removed. -/
theorem commitStoreInfo_eq_some {si : StoreInfo}
    (h : commitStoreInfo version removalMap m key = some si) :
    ∃ store, m.lookup key = some store ∧ ephemeral store = false ∧
      si = ⟨key, (commitStore version store).1⟩ := by
  rw [commitStoreInfo] at h
  split at h
  · cases h
  · next store hstore =>
    split at h
    · cases h
    · next hephemeral =>
      split at h
      · cases h
      · exact ⟨store, hstore, Bool.eq_false_iff.mpr hephemeral, (Option.some.inj h).symm⟩

/-- An info has the name of its store. -/
theorem name_of_commitStoreInfo (key : Bytes) (si : StoreInfo)
    (h : commitStoreInfo version removalMap m key = some si) : si.name = key := by
  obtain ⟨store, -, -, rfl⟩ := commitStoreInfo_eq_some h
  rfl

/-- No store, no info. -/
theorem commitStoreInfo_of_notMem (h : key ∉ m) :
    commitStoreInfo version removalMap m key = none := by
  rw [commitStoreInfo, AList.lookup_eq_none.mpr h]

/-- One round adds the info of its store, and commits the store. -/
theorem commitRound_eq (version : ℤ) (removalMap : GoMap Bytes Bool)
    (acc : List StoreInfo × GoMap Bytes σ) (key : Bytes) :
    (commitRound version removalMap acc key).1 =
        acc.1 ++ (commitStoreInfo version removalMap acc.2 key).toList ∧
      ∀ k, (commitRound version removalMap acc key).2.lookup k =
        if k = key then (acc.2.lookup k).map fun store => (commitStore version store).2
        else acc.2.lookup k := by
  rw [commitRound, commitStoreInfo]
  cases hstore : acc.2.lookup key with
  | none => exact ⟨(List.append_nil _).symm, eq_ite_of_eq (by rw [hstore]; rfl)⟩
  | some store =>
    have hlookup : ∀ k, (acc.2.insert key (commitStore version store).2).lookup k =
        if k = key then (acc.2.lookup k).map fun store => (commitStore version store).2
        else acc.2.lookup k := by
      intro k
      rw [lookup_insert_ite]
      split
      · next hk => rw [hk, hstore]; rfl
      · rfl
    dsimp only
    by_cases hephemeral : ephemeral store = true
    · rw [if_pos hephemeral, if_pos hephemeral]
      exact ⟨(List.append_nil _).symm, hlookup⟩
    · rw [if_neg hephemeral, if_neg hephemeral]
      by_cases hremoved : removed removalMap key = true
      · rw [if_pos hremoved, if_pos hremoved]
        exact ⟨(List.append_nil _).symm, hlookup⟩
      · rw [if_neg hremoved, if_neg hremoved]
        exact ⟨rfl, hlookup⟩

/-- **The loop of `commitStores`.** -/
theorem foldl_commitRound (version : ℤ) (removalMap : GoMap Bytes Bool) {keys : List Bytes}
    (hnodup : keys.Nodup) (acc : List StoreInfo × GoMap Bytes σ) :
    (keys.foldl (commitRound version removalMap) acc).1 =
        acc.1 ++ keys.filterMap (commitStoreInfo version removalMap acc.2) ∧
      (∀ k ∈ keys, (keys.foldl (commitRound version removalMap) acc).2.lookup k =
        (acc.2.lookup k).map fun store => (commitStore version store).2) ∧
      ∀ k, k ∉ keys →
        (keys.foldl (commitRound version removalMap) acc).2.lookup k = acc.2.lookup k := by
  induction keys generalizing acc with
  | nil => exact ⟨(List.append_nil _).symm, (fun k hk => by cases hk), fun _ _ => rfl⟩
  | cons key keys ih =>
    obtain ⟨hkey, hnodup⟩ := List.nodup_cons.mp hnodup
    obtain ⟨hinfo, hlookup⟩ := commitRound_eq version removalMap acc key
    obtain ⟨hinfos, hcommitted, hothers⟩ := ih hnodup (commitRound version removalMap acc key)
    have hsame : ∀ k ∈ keys, (commitRound version removalMap acc key).2.lookup k =
        acc.2.lookup k := fun k hk => by
      rw [hlookup, if_neg (ne_of_mem_of_not_mem hk hkey)]
    rw [List.foldl_cons]
    refine ⟨?_, fun k hk => ?_, fun k hk => ?_⟩
    · have hcongr : keys.filterMap (commitStoreInfo version removalMap
          (commitRound version removalMap acc key).2) =
            keys.filterMap (commitStoreInfo version removalMap acc.2) :=
        List.filterMap_congr fun k hk => by rw [commitStoreInfo, commitStoreInfo, hsame k hk]
      rw [hinfos, hinfo, hcongr, List.append_assoc]
      cases hkey : commitStoreInfo version removalMap acc.2 key with
      | none => rw [List.filterMap_cons_none hkey]; rfl
      | some si => rw [List.filterMap_cons_some hkey]; rfl
    · obtain rfl | hk := List.mem_cons.mp hk
      · rw [hothers k hkey, hlookup, if_pos rfl]
      · rw [hcommitted k hk, hsame k hk]
    · rw [List.mem_cons, not_or] at hk
      rw [hothers k hk.2, hlookup, if_neg hk.1]

/-- **`commitStores`** makes the infos of the stores in the order of their names, and commits every
store. -/
theorem commitStores_eq (order : Traversal Bytes σ) (version : ℤ) (stores : GoMap Bytes σ)
    (removalMap : GoMap Bytes Bool) :
    (commitStores order version stores removalMap).1 =
        ⟨version, (keysFromStoreKeyMap order stores).filterMap
          (commitStoreInfo version removalMap stores)⟩ ∧
      ∀ key, (commitStores order version stores removalMap).2.lookup key =
        (stores.lookup key).map fun store => (commitStore version store).2 := by
  have hkeys := pairwise_keysFromStoreKeyMap order stores
  obtain ⟨hinfos, hcommitted, hothers⟩ := foldl_commitRound version removalMap
    (hkeys.imp ne_of_lt) (([], stores) : List StoreInfo × GoMap Bytes σ)
  refine ⟨?_, fun key => ?_⟩
  · rw [commitStores, hinfos, List.nil_append, sort_infos hkeys name_of_commitStoreInfo]
  · by_cases hkey : key ∈ stores
    · exact hcommitted key (mem_keysFromStoreKeyMap.mpr hkey)
    · have hnone := AList.lookup_eq_none.mpr hkey
      rw [hnone]
      exact (hothers key (mt mem_keysFromStoreKeyMap.mp hkey)).trans hnone

/-! ### The working hash -/

namespace RootStore

variable {sha256 : Bytes → Digest} {rs : RootStore σ} {key : Bytes}

/-- An info is of an IAVL store. -/
theorem workingStoreInfo_eq_some {si : StoreInfo} (h : rs.workingStoreInfo key = some si) :
    ∃ store, rs.stores.lookup key = some store ∧ ephemeral store = false ∧
      si = ⟨key, ⟨0, Committer.workingHash store⟩⟩ := by
  rw [workingStoreInfo] at h
  split at h
  · cases h
  · next store hstore =>
    split at h
    · cases h
    · next htype =>
      split at h
      · cases h
      · refine ⟨store, hstore, ?_, (Option.some.inj h).symm⟩
        rw [ephemeral, not_not.mp htype]
        rfl

/-- An info has the name of its store. -/
theorem name_of_workingStoreInfo (key : Bytes) (si : StoreInfo)
    (h : rs.workingStoreInfo key = some si) : si.name = key := by
  obtain ⟨store, -, -, rfl⟩ := workingStoreInfo_eq_some h
  rfl

/-- No store, no info. -/
theorem workingStoreInfo_of_notMem (h : key ∉ rs.stores) : rs.workingStoreInfo key = none := by
  rw [workingStoreInfo, AList.lookup_eq_none.mpr h]

/-- What the two functions make of a store, of the types that can be mounted: the same, but for a
database store that is not removed. -/
theorem storeInfo_cases {store : σ} (hstore : rs.stores.lookup key = some store)
    (htype : getStoreType store ∈ [StoreType.iavl, .db, .transient, .memory])
    (hhash : bytesEqual (Committer.workingHash store) (Committer.commit store).1.hash = true)
    (hversion : (lastCommitID store).version < rs.nextVersion) :
    (rs.workingStoreInfo key).map (·.getHash.getD []) =
        (commitStoreInfo rs.nextVersion rs.removalMap rs.stores key).map (·.getHash.getD []) ↔
      (getStoreType store = .db → removed rs.removalMap key = true) := by
  have hcommit : commitStore rs.nextVersion store = Committer.commit store := by
    rw [commitStore, if_neg (not_le.mpr hversion)]
  have hbytes := bytesEqual_iff.mp hhash
  rw [workingStoreInfo, commitStoreInfo, hstore]
  dsimp only
  rw [hcommit]
  simp only [List.mem_cons, List.not_mem_nil, or_false] at htype
  obtain htype | htype | htype | htype := htype
  · by_cases hremoved : removed rs.removalMap key = true
    · simp [ephemeral, htype, hremoved]
    · simp [ephemeral, htype, hremoved, StoreInfo.getHash, hbytes]
  · by_cases hremoved : removed rs.removalMap key = true
    · simp [htype, hremoved]
    · simp [ephemeral, htype, hremoved]
  · simp [ephemeral, htype]
  · simp [ephemeral, htype]

/-- What is given of the mounted stores: they have names, and the types that can be mounted; the
working hash of each is the hash that its commit will return; and none is at the next version. -/
structure Predictable (rs : RootStore σ) : Prop where
  names : ∀ name store, rs.stores.lookup name = some store → ephemeral store = false → name ≠ []
  types : ∀ name store, rs.stores.lookup name = some store →
    getStoreType store ∈ [StoreType.iavl, .db, .transient, .memory]
  hashes : ∀ name store, rs.stores.lookup name = some store →
    bytesEqual (Committer.workingHash store) (Committer.commit store).1.hash = true
  versions : ∀ name store, rs.stores.lookup name = some store →
    (lastCommitID store).version < rs.nextVersion

/-- The sort changes nothing. -/
theorem workingInfo_eq (order : Traversal Bytes σ) (rs : RootStore σ) :
    rs.workingInfo order =
      ⟨0, (keysFromStoreKeyMap order rs.stores).filterMap rs.workingStoreInfo⟩ := by
  rw [workingInfo, sort_infos (pairwise_keysFromStoreKeyMap order rs.stores)
    name_of_workingStoreInfo]

/-- The maps that are hashed are the same if and only if every database store is removed. -/
theorem Predictable.sameMap_iff (h : rs.Predictable) (order order' : Traversal Bytes σ) :
    SameMap (rs.workingInfo order).toMap
        (commitStores order' rs.nextVersion rs.stores rs.removalMap).1.toMap ↔
      ∀ name store, rs.stores.lookup name = some store → getStoreType store = .db →
        removed rs.removalMap name = true := by
  have hworking (key : Bytes) : (rs.workingInfo order).toMap.lookup key =
      (rs.workingStoreInfo key).map StoreInfo.getHash := by
    rw [workingInfo_eq]
    exact lookup_toMap_infos (pairwise_keysFromStoreKeyMap order rs.stores)
      name_of_workingStoreInfo
      (fun key hkey => workingStoreInfo_of_notMem (mt mem_keysFromStoreKeyMap.mpr hkey)) 0 key
  have hcommit (key : Bytes) :
      (commitStores order' rs.nextVersion rs.stores rs.removalMap).1.toMap.lookup key =
        (commitStoreInfo rs.nextVersion rs.removalMap rs.stores key).map StoreInfo.getHash := by
    rw [(commitStores_eq order' rs.nextVersion rs.stores rs.removalMap).1]
    exact lookup_toMap_infos (pairwise_keysFromStoreKeyMap order' rs.stores)
      name_of_commitStoreInfo
      (fun key hkey => commitStoreInfo_of_notMem (mt mem_keysFromStoreKeyMap.mpr hkey)) _ key
  simp only [SameMap, hworking, hcommit, Option.map_map]
  constructor
  · intro hsame name store hstore
    exact (storeInfo_cases hstore (h.types name store hstore) (h.hashes name store hstore)
      (h.versions name store hstore)).mp (hsame name)
  · intro hremoved key
    cases hstore : rs.stores.lookup key with
    | none =>
      have hkey := AList.lookup_eq_none.mp hstore
      rw [workingStoreInfo_of_notMem hkey, commitStoreInfo_of_notMem hkey]
    | some store =>
      exact (storeInfo_cases hstore (h.types key store hstore) (h.hashes key store hstore)
        (h.versions key store hstore)).mpr (hremoved key store hstore)

/-- Both hashes are roots. -/
theorem Predictable.hashes_eq_ok (h : rs.Predictable) (comet : CometMerkle sha256)
    (order order' : Traversal Bytes σ) (order₁ order₂ : Traversal Bytes Slice) :
    rs.workingHash comet order order₁ = .ok (mapRoot sha256 (rs.workingInfo order).toMap).1 ∧
      (commitStores order' rs.nextVersion rs.stores rs.removalMap).1.hash comet order₂ =
        .ok (mapRoot sha256
          (commitStores order' rs.nextVersion rs.stores rs.removalMap).1.toMap).1 := by
  constructor
  · refine CommitInfo.hash_eq_ok comet (fun si hsi => ?_) order₁
    rw [workingInfo_eq] at hsi
    obtain ⟨key, -, hkey⟩ := List.mem_filterMap.mp hsi
    obtain ⟨store, hstore, hephemeral, rfl⟩ := workingStoreInfo_eq_some hkey
    exact h.names key store hstore hephemeral
  · refine CommitInfo.hash_eq_ok comet (fun si hsi => ?_) order₂
    rw [(commitStores_eq order' rs.nextVersion rs.stores rs.removalMap).1] at hsi
    obtain ⟨key, -, hkey⟩ := List.mem_filterMap.mp hsi
    obtain ⟨store, hstore, hephemeral, rfl⟩ := commitStoreInfo_eq_some hkey
    exact h.names key store hstore hephemeral

/-- The strings that are hashed for the working hash and for the commit. -/
def hashedForCommit (sha256 : Bytes → Digest) (order order' : Traversal Bytes σ)
    (rs : RootStore σ) : Set Bytes :=
  hashedStrings sha256 (rs.workingInfo order).toMap ∪
    hashedStrings sha256 (commitStores order' rs.nextVersion rs.stores rs.removalMap).1.toMap

/-- The roots are the same if every database store is removed, and only then unless two of the
hashed strings collide. -/
theorem Predictable.root_eq_iff (h : rs.Predictable) (order order' : Traversal Bytes σ) :
    ((∀ name store, rs.stores.lookup name = some store → getStoreType store = .db →
        removed rs.removalMap name = true) →
      mapRoot sha256 (commitStores order' rs.nextVersion rs.stores rs.removalMap).1.toMap =
        mapRoot sha256 (rs.workingInfo order).toMap) ∧
    (Set.InjOn sha256 (hashedForCommit sha256 order order' rs) →
      mapRoot sha256 (commitStores order' rs.nextVersion rs.stores rs.removalMap).1.toMap =
        mapRoot sha256 (rs.workingInfo order).toMap →
      ∀ name store, rs.stores.lookup name = some store → getStoreType store = .db →
        removed rs.removalMap name = true) := by
  rw [← h.sameMap_iff order order', eq_comm]
  exact ⟨mapRoot_congr, fun hinj => (mapRoot_eq_iff hinj).mp⟩

/-- **The working hash is the hash of the next commit** if no database store is mounted that is not
about to be removed, and only then unless two of the strings collide that are hashed on the way. -/
theorem workingHash_eq_commit_iff (comet : CometMerkle sha256) (rs : RootStore σ)
    (h : rs.Predictable) (order order' : Traversal Bytes σ) (order₁ order₂ : Traversal Bytes Slice)
    (order'' : Traversal Bytes Bool) :
    ∃ hash id rs', rs.workingHash comet order order₁ = .ok hash ∧
      rs.commit comet order' order₂ order'' = .ok (id, rs') ∧
      ((∀ name store, rs.stores.lookup name = some store → getStoreType store = .db →
        removed rs.removalMap name = true) → id.hash = some hash) ∧
      (Set.InjOn sha256 (hashedForCommit sha256 order order' rs) → id.hash = some hash →
        ∀ name store, rs.stores.lookup name = some store → getStoreType store = .db →
          removed rs.removalMap name = true) := by
  obtain ⟨hworking, hcommit⟩ := h.hashes_eq_ok comet order order' order₁ order₂
  refine ⟨_, _, _, hworking, by rw [commit, hcommit]; rfl, ?_⟩
  rw [Option.some_inj, Subtype.coe_inj]
  exact h.root_eq_iff order order'

/-! ### Replicas -/

section Replicas

variable (comet : CometMerkle sha256)
  (htype : ∀ store : σ, getStoreType (Committer.commit store).2 = getStoreType store)
include htype

end Replicas

end RootStore

end Commit

/-! ### A root store with a database store -/

/-- A tree that is its own hash. -/
structure PlainTree where
  bytes : Bytes

instance instTreeContentPlainTree : TreeContent PlainTree := ⟨⟨[]⟩, fun tree => some tree.bytes⟩

/-- New IAVL and database stores have the hashes that they will be committed with. -/
theorem predictable_of_new {rs : RootStore (MountedStore PlainTree)} (hversion : rs.nextVersion = 1)
    (hnew : ∀ name store, rs.stores.lookup name = some store →
      name ≠ [] ∧ (store = .iavl ⟨0, ⟨[]⟩, ∅⟩ ∨ store = .db ⟨[]⟩)) : rs.Predictable where
  names name store h _ := (hnew name store h).1
  types name store h := by obtain ⟨-, rfl | rfl⟩ := hnew name store h <;> decide
  hashes name store h := by obtain ⟨-, rfl | rfl⟩ := hnew name store h <;> decide
  versions name store h := by
    rw [hversion]
    obtain ⟨-, rfl | rfl⟩ := hnew name store h <;> decide

/-- One database store, which is removed or not. -/
def dbOnly (removalMap : GoMap Bytes Bool) : RootStore (MountedStore PlainTree) where
  stores := AList.singleton [0x64] (.db ⟨[]⟩)
  removalMap
  lastCommitInfo := none
  initialVersion := 0

/-- Its working hash is that of its commit. -/
theorem predictable_dbOnly (removalMap : GoMap Bytes Bool) : (dbOnly removalMap).Predictable := by
  refine predictable_of_new (by decide : int64 (0 + 1) = 1) fun name store h => ?_
  obtain ⟨rfl, rfl⟩ := lookup_singleton_iff.mp h
  exact ⟨List.cons_ne_nil _ _, .inr rfl⟩

/-- An IAVL store beside the database store. -/
def iavlAndDb (removalMap : GoMap Bytes Bool) : RootStore (MountedStore PlainTree) :=
  { dbOnly removalMap with stores := (dbOnly ∅).stores.insert [0x69] (.iavl ⟨0, ⟨[]⟩, ∅⟩) }

/-- Its stores. -/
theorem lookup_iavlAndDb {removalMap : GoMap Bytes Bool} {name : Bytes}
    {store : MountedStore PlainTree} (h : (iavlAndDb removalMap).stores.lookup name = some store) :
    name = [0x69] ∧ store = .iavl ⟨0, ⟨[]⟩, ∅⟩ ∨ name = [0x64] ∧ store = .db ⟨[]⟩ := by
  rw [iavlAndDb, lookup_insert_ite] at h
  split at h
  · next hname => exact .inl ⟨hname, (Option.some.inj h).symm⟩
  · exact .inr (lookup_singleton_iff.mp h)

/-- Its working hashes are those of its commit. -/
theorem predictable_iavlAndDb (removalMap : GoMap Bytes Bool) :
    (iavlAndDb removalMap).Predictable := by
  refine predictable_of_new (by decide : int64 (0 + 1) = 1) fun name store h => ?_
  obtain ⟨rfl, rfl⟩ | ⟨rfl, rfl⟩ := lookup_iavlAndDb h
  · exact ⟨List.cons_ne_nil _ _, .inl rfl⟩
  · exact ⟨List.cons_ne_nil _ _, .inr rfl⟩

/-- The database store is removed with the commit, the IAVL store stays. -/
theorem workingHash_eq_commit_iff_of_removed : ∃ hash id rs',
    (iavlAndDb (AList.singleton [0x64] true)).workingHash (.standard lengthAndLast) .listed
        .listed = .ok hash ∧
      (iavlAndDb (AList.singleton [0x64] true)).commit (.standard lengthAndLast)
        Traversal.listed.backwards .listed .listed = .ok (id, rs') ∧
      id.hash = some hash ∧ rs'.stores.keys = [[0x69]] := by
  obtain ⟨hash, id, rs', hworking, hcommit, hequal, -⟩ := RootStore.workingHash_eq_commit_iff
    (.standard lengthAndLast) _ (predictable_iavlAndDb (AList.singleton [0x64] true)) .listed
    Traversal.listed.backwards .listed .listed .listed
  refine ⟨hash, id, rs', hworking, hcommit, hequal fun name store hstore htype => ?_, ?_⟩
  · obtain ⟨-, rfl⟩ | ⟨rfl, -⟩ := lookup_iavlAndDb hstore
    · cases htype
    · decide
  · cases hcommit
    rfl

/-- The store is not removed. -/
theorem workingHash_eq_commit_fails :
    ∃ hash id rs', (dbOnly ∅).workingHash (.standard lengthAndLast) .listed .listed = .ok hash ∧
      (dbOnly ∅).commit (.standard lengthAndLast) .listed .listed .listed = .ok (id, rs') ∧
      id.hash ≠ some hash := by
  have hleaf : 0 :: (pairOf lengthAndLast ⟨[0x64], MountedStore.commithash⟩).bytes =
      [0, 1, 0x64, 32] ++ (lengthAndLast (ascii "FAKE_HASH")).1 := leaf_lengthAndLast 0x64 _
  have hinj : Set.InjOn lengthAndLast
      (RootStore.hashedForCommit lengthAndLast .listed .listed (dbOnly ∅)) := by
    have hstrings : RootStore.hashedForCommit lengthAndLast .listed .listed (dbOnly ∅) =
        {[]} ∪ {ascii "FAKE_HASH",
          [0, 1, 0x64, 32] ++ (lengthAndLast (ascii "FAKE_HASH")).1} := by
      rw [← hleaf]
      exact congrArg₂ (· ∪ ·) (hashedStrings_empty _)
        (hashedStrings_singleton lengthAndLast [0x64] MountedStore.commithash)
    rw [hstrings]
    rintro x (rfl | rfl | rfl) y (rfl | rfl | rfl) h <;>
      first | rfl | exact absurd (congrArg Subtype.val h) (by decide)
  obtain ⟨hworking, hcommit⟩ := (predictable_dbOnly ∅).hashes_eq_ok (.standard lengthAndLast)
    .listed .listed .listed .listed
  refine ⟨_, _, _, hworking, by rw [RootStore.commit, hcommit]; rfl, fun heq => ?_⟩
  have hroot := Subtype.ext (Option.some.inj heq)
  exact absurd (((predictable_dbOnly ∅).root_eq_iff _ _).2 hinj hroot [0x64] _
    (lookup_singleton_iff.mpr ⟨rfl, rfl⟩) rfl) (by decide)

end MelodiaStore
