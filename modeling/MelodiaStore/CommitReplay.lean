import MelodiaStore.RootCommit

/-!
# Committing Again After a Crash

`commitStores` is interrupted when some of the stores are committed, the node is started again and
the block executed again, and `commitStores` is called a second time. A store that is at the version
already is not committed again; its commit ID is then what `LastCommitID` returns.

The `LastCommitID` of an `iavl.Store` has the version and no hash: the second commit info lacks the
hashes of the stores that the first call had reached.

## Main results

* `commitStores_replay_iff`: the second call returns what an uninterrupted one returns if and only
  if no IAVL store among those the first call had reached has a hash.
* `commitStores_replay_fails`: one store, and a crash after its commit.
-/

namespace MelodiaStore

open MountedStore (iavl saveVersion)

open Committer

section Replay

variable {κ : Type} [TreeContent κ]

/-- A store after the crash, when the block has been executed again: what it saved is there, and its
content is again what it was `before` the commit. -/
def MountedStore.reexecuted (before after : MountedStore κ) : MountedStore κ :=
  match before, after with
  | .iavl b, .iavl a => .iavl { a with working := b.working }
  | b, _ => b

/-- The stores when `commitStores` is interrupted after the first `k` of them. -/
def interruptedStores (order : Traversal Bytes (MountedStore κ)) (version : ℤ)
    (stores : GoMap Bytes (MountedStore κ)) (removalMap : GoMap Bytes Bool) (k : ℕ) :
    GoMap Bytes (MountedStore κ) :=
  (((keysFromStoreKeyMap order stores).take k).foldl (commitRound version removalMap)
    ([], stores)).2

/-- The stores when the block has been executed again. -/
def reexecutedStores (order : Traversal Bytes (MountedStore κ)) (version : ℤ)
    (stores : GoMap Bytes (MountedStore κ)) (removalMap : GoMap Bytes Bool) (k : ℕ) :
    GoMap Bytes (MountedStore κ) :=
  mapValues (fun name after => ((stores.lookup name).map fun before =>
    before.reexecuted after).getD after) (interruptedStores order version stores removalMap k)

/-! ### The stores before the second call -/

omit [TreeContent κ] in
theorem MountedStore.reexecuted_self (store : MountedStore κ) : store.reexecuted store = store := by
  cases store <;> rfl

variable {order : Traversal Bytes (MountedStore κ)} {version : ℤ}
  {stores : GoMap Bytes (MountedStore κ)} {removalMap : GoMap Bytes Bool} {k : ℕ} {key : Bytes}
  {st : IavlStore κ} {store : MountedStore κ}

/-- Executed again are the stores that the first call had reached. -/
theorem lookup_reexecutedStores :
    (reexecutedStores order version stores removalMap k).lookup key =
      if key ∈ (keysFromStoreKeyMap order stores).take k then
        (stores.lookup key).map fun store => store.reexecuted (commitStore version store).2
      else stores.lookup key := by
  -- the first call reaches each store once
  have hnodup : ((keysFromStoreKeyMap order stores).take k).Nodup :=
    ((pairwise_keysFromStoreKeyMap order stores).imp ne_of_lt).sublist (List.take_sublist _ _)
  obtain ⟨-, hcommitted, hothers⟩ := foldl_commitRound version removalMap hnodup
    (([], stores) : List StoreInfo × GoMap Bytes (MountedStore κ))
  rw [reexecutedStores, lookup_mapValues, interruptedStores]
  split
  · next hkey =>
    rw [hcommitted key hkey]
    cases stores.lookup key <;> rfl
  · next hkey =>
    rw [hothers key hkey]
    cases stores.lookup key with
    | none => rfl
    | some store => exact congrArg some store.reexecuted_self

/-- A re-execution mounts nothing new. -/
theorem mem_reexecutedStores :
    key ∈ stores ↔ key ∈ reexecutedStores order version stores removalMap k := by
  rw [← AList.lookup_isSome, ← AList.lookup_isSome]
  rw [lookup_reexecutedStores]
  split
  · rw [Option.isSome_map]
  · rfl

/-! ### The second call -/

omit [TreeContent κ] in
/-- Infos that are made of the same names are the same if each of them is. -/
theorem filterMap_eq_iff {α β : Type} {g g' : α → Option β} {l : List α}
    (h : ∀ a ∈ l, (g a).isSome = (g' a).isSome) :
    l.filterMap g = l.filterMap g' ↔ ∀ a ∈ l, g a = g' a := by
  induction l with
  | nil => simp
  | cons a l ih =>
    have hl := ih fun b hb => h b (List.mem_cons_of_mem a hb)
    have ha := h a List.mem_cons_self
    cases hg : g a with
    | none =>
      cases hg' : g' a with
      | none => simp [hg, hg', hl]
      | some b' => simp [hg, hg'] at ha
    | some b =>
      cases hg' : g' a with
      | none => simp [hg, hg'] at ha
      | some b' => simp [hg, hg', hl]

/-- The commit of an IAVL store that is one version behind. -/
theorem commitStore_iavl (h : st.version = version - 1) :
    commitStore version (iavl st) = (⟨version, TreeContent.treeHash st.working⟩,
      iavl { st with version, saved := st.saved.insert version st.working }) := by
  have hnext : st.version + 1 = version := by omega
  have hlt : ¬ version ≤ (lastCommitID (iavl st)).version := by
    change ¬ version ≤ st.version
    omega
  rw [commitStore, if_neg hlt]
  change ((saveVersion st).1, iavl (saveVersion st).2) = _
  rw [saveVersion, hnext]

/-- When the block has been executed again the store is at the version, with the same content. -/
theorem reexecuted_iavl (h : st.version = version - 1) :
    (iavl st).reexecuted (commitStore version (iavl st)).2 =
      .iavl ⟨version, st.working, st.saved.insert version st.working⟩ := by
  rw [commitStore_iavl h]
  rfl

/-- It is not committed again, and has no hash. -/
theorem commitStore_iavl_again (version : ℤ) (working : κ) (saved : GoMap ℤ κ) :
    commitStore version (iavl ⟨version, working, saved⟩) =
      (⟨version, none⟩, iavl ⟨version, working, saved⟩) := by
  have hle : version ≤ (lastCommitID (iavl ⟨version, working, saved⟩)).version :=
    le_refl version
  rw [commitStore, if_pos hle]
  rfl

/-- Only a commit of an IAVL store leaves one. -/
theorem exists_iavl_of_commitStore (h : (commitStore version store).2 = .iavl st) :
    ∃ before, store = .iavl before := by
  cases store with
  | iavl before => exact ⟨before, rfl⟩
  | db content | transient content | memory content =>
    rw [commitStore] at h
    split at h <;> cases h

/-- What the second call makes of a store that the first one had reached: an IAVL store has no hash
then, and the others are as they were. -/
theorem commitStoreInfo_reexecuted
    (hversions : ∀ name st, stores.lookup name = some (.iavl st) → st.version = version - 1)
    (hstore : stores.lookup key = some store)
    (hkey : key ∈ (keysFromStoreKeyMap order stores).take k) :
    (commitStoreInfo version removalMap stores key).isSome =
        (commitStoreInfo version removalMap
          (reexecutedStores order version stores removalMap k) key).isSome ∧
      (commitStoreInfo version removalMap stores key =
          commitStoreInfo version removalMap
            (reexecutedStores order version stores removalMap k) key ↔
        ∀ st, store = .iavl st → removed removalMap key = false →
          TreeContent.treeHash st.working = none) := by
  rw [commitStoreInfo, commitStoreInfo, lookup_reexecutedStores, if_pos hkey, hstore]
  dsimp only [Option.map_some]
  cases store with
  | iavl st =>
    have hephemeral : ∀ st : IavlStore κ, ephemeral (iavl st) = false := fun _ => rfl
    have hversion := hversions key st hstore
    rw [reexecuted_iavl hversion, commitStore_iavl hversion, hephemeral, hephemeral,
      commitStore_iavl_again]
    cases hremoved : removed removalMap key with
    | true => simp
    | false => simp
  | db content | transient content | memory content =>
    exact ⟨rfl, iff_of_true rfl fun st hst => by cases hst⟩

/-- What it makes of a store that the first one had not reached. -/
theorem commitStoreInfo_untouched (hkey : key ∉ (keysFromStoreKeyMap order stores).take k) :
    commitStoreInfo version removalMap (reexecutedStores order version stores removalMap k) key =
      commitStoreInfo version removalMap stores key := by
  rw [commitStoreInfo, commitStoreInfo, lookup_reexecutedStores, if_neg hkey]

/-- After the second call every IAVL store is at the version. -/
theorem version_of_replay
    (hversions : ∀ name st, stores.lookup name = some (.iavl st) → st.version = version - 1)
    {order' : Traversal Bytes (MountedStore κ)} {name : Bytes}
    (h : (commitStores order' version (reexecutedStores order version stores removalMap k)
      removalMap).2.lookup name = some (.iavl st)) : st.version = version := by
  rw [(commitStores_eq _ _ _ _).2] at h
  obtain ⟨store, hstore, hcommitted⟩ := Option.map_eq_some_iff.mp h
  by_cases hname : name ∈ (keysFromStoreKeyMap order stores).take k
  · rw [lookup_reexecutedStores, if_pos hname] at hstore
    obtain ⟨before, hbefore, rfl⟩ := Option.map_eq_some_iff.mp hstore
    cases before with
    | iavl b =>
      rw [reexecuted_iavl (hversions name b hbefore), commitStore_iavl_again] at hcommitted
      obtain rfl := iavl.inj hcommitted
      rfl
    | db content | transient content | memory content =>
      obtain ⟨b, hb⟩ := exists_iavl_of_commitStore hcommitted
      cases hb
  · rw [lookup_reexecutedStores, if_neg hname] at hstore
    obtain ⟨b, rfl⟩ := exists_iavl_of_commitStore hcommitted
    rw [commitStore_iavl (hversions name b hstore)] at hcommitted
    obtain rfl := iavl.inj hcommitted
    rfl

/-- **Committing again after a crash** returns what an uninterrupted commit returns if and only if
no IAVL store that was committed before the crash, and is not removed, has a hash. The IAVL stores
end at the version in any case. -/
theorem commitStores_replay_iff (order order' order'' : Traversal Bytes (MountedStore κ))
    (version : ℤ) (stores : GoMap Bytes (MountedStore κ)) (removalMap : GoMap Bytes Bool) (k : ℕ)
    (hversions : ∀ name st, stores.lookup name = some (.iavl st) → st.version = version - 1) :
    ((commitStores order'' version (reexecutedStores order version stores removalMap k)
          removalMap).1 = (commitStores order' version stores removalMap).1 ∧
        ∀ name st, (commitStores order'' version
            (reexecutedStores order version stores removalMap k) removalMap).2.lookup name =
          some (.iavl st) → st.version = version) ↔
      ∀ name st, name ∈ (keysFromStoreKeyMap order stores).take k →
        stores.lookup name = some (.iavl st) → removed removalMap name = false →
        TreeContent.treeHash st.working = none := by
  have hkeys : keysFromStoreKeyMap order'' (reexecutedStores order version stores removalMap k) =
      keysFromStoreKeyMap order stores :=
    keysFromStoreKeyMap_eq (fun _ => mem_reexecutedStores.symm) order'' order
  have hkeys' := keysFromStoreKeyMap_eq (m := stores) (fun _ => Iff.rfl) order' order
  have hpoint : ∀ key ∈ keysFromStoreKeyMap order stores,
      (commitStoreInfo version removalMap stores key).isSome =
        (commitStoreInfo version removalMap
          (reexecutedStores order version stores removalMap k) key).isSome := by
    intro key hkey
    by_cases htake : key ∈ (keysFromStoreKeyMap order stores).take k
    · obtain ⟨store, hstore⟩ := mem_iff_exists_lookup.mp (mem_keysFromStoreKeyMap.mp hkey)
      exact (commitStoreInfo_reexecuted hversions hstore htake).1
    · rw [commitStoreInfo_untouched htake]
  rw [and_iff_left fun name st => version_of_replay hversions, (commitStores_eq _ _ _ _).1,
    (commitStores_eq _ _ _ _).1, hkeys, hkeys', CommitInfo.mk.injEq, and_iff_right rfl, eq_comm,
    filterMap_eq_iff hpoint]
  constructor
  · intro hsame name st hname hst hremoved
    exact (commitStoreInfo_reexecuted hversions hst hname).2.mp
      (hsame name (List.mem_of_mem_take hname)) st rfl hremoved
  · intro hnone key hkey
    by_cases htake : key ∈ (keysFromStoreKeyMap order stores).take k
    · obtain ⟨store, hstore⟩ := mem_iff_exists_lookup.mp (mem_keysFromStoreKeyMap.mp hkey)
      exact (commitStoreInfo_reexecuted hversions hstore htake).2.mpr
        fun st hst hremoved => hnone key st htake (hst ▸ hstore) hremoved
    · rw [commitStoreInfo_untouched htake]

end Replay

/-- A transient store and an IAVL store behind it. -/
def twoStores : GoMap Bytes (MountedStore PlainTree) :=
  (AList.singleton [0x62] (.iavl ⟨0, ⟨[7]⟩, ∅⟩)).insert [0x61] (.transient ⟨[]⟩)

/-- The crash comes before the IAVL store. -/
theorem commitStores_replay_iff_of_transient :
    (commitStores .listed 1 (reexecutedStores .listed 1 twoStores ∅ 1) ∅).1 =
      (commitStores .listed 1 twoStores ∅).1 := by
  have hstores : ∀ name store, twoStores.lookup name = some store →
      name = [0x61] ∧ store = .transient ⟨[]⟩ ∨ name = [0x62] ∧ store = .iavl ⟨0, ⟨[7]⟩, ∅⟩ := by
    intro name store h
    rw [twoStores, lookup_insert_ite] at h
    split at h
    · next hname => exact .inl ⟨hname, (Option.some.inj h).symm⟩
    · exact .inr (lookup_singleton_iff.mp h)
  refine ((commitStores_replay_iff .listed .listed .listed 1 twoStores ∅ 1 ?_).mpr ?_).1
  · intro name st h
    obtain ⟨-, hst⟩ | ⟨-, hst⟩ := hstores name _ h
    · cases hst
    · obtain rfl := MountedStore.iavl.inj hst
      rfl
  · intro name st hname h _
    have hfirst : name = [0x61] := List.mem_singleton.mp hname
    obtain ⟨-, hst⟩ | ⟨hb, -⟩ := hstores name _ h
    · cases hst
    · rw [hfirst] at hb
      cases hb

/-- One IAVL store, and a crash after its commit. -/
theorem commitStores_replay_fails :
    ∃ stores : GoMap Bytes (MountedStore PlainTree),
      stores = AList.singleton [0x61] (.iavl ⟨0, ⟨[7]⟩, ∅⟩) ∧
      (commitStores .listed 1 stores ∅).1 = ⟨1, [⟨[0x61], ⟨1, some [7]⟩⟩]⟩ ∧
      (commitStores .listed 1 (reexecutedStores .listed 1 stores ∅ 1) ∅).1 =
        ⟨1, [⟨[0x61], ⟨1, none⟩⟩]⟩ :=
  ⟨_, rfl, rfl, rfl⟩

end MelodiaStore
