import MelodiaStore.MerkleMap

/-!
# Commit Infos

`types/commit_info.go`, and `ProofsFromMap` of `internal/maps`, from which a commit info has its
hash: the root of the map from the names of the stores to their hashes.

The proofs come from cometbft. What is assumed of its `merkle.ProofsFromByteSlices` are the two
equations of `CometMerkle`: it returns the root of RFC 6962, and for each item the siblings on the
way from the leaf to the root.

## Main results

* `proofsFromMap_eq_ok`: the root, and for each key of the map the proof of its leaf.
* `CommitInfo.hash_eq_ok`: the hash of a commit info is `HashFromMap` of its map.
-/

namespace MelodiaStore

/-! ### Proofs from cometbft -/

/-- A proof of cometbft, in the form in which it is sent. -/
structure MerkleProof where
  total : ℕ
  index : ℕ
  leafHash : Bytes
  aunts : List Bytes

/-- `merkle.ProofsFromByteSlices` of cometbft, which is not a part of the repository. -/
structure CometMerkle (sha256 : Bytes → Digest) where
  proofsFromByteSlices : List Bytes → Bytes × List MerkleProof
  root_eq : ∀ items, (proofsFromByteSlices items).1 =
    ((MerkleTree.ofList items).root (sha256 ∘ Tree.nodeBytes)).1
  proofs_eq : ∀ items, (proofsFromByteSlices items).2 = items.mapIdx fun i item =>
    { total := items.length
      index := i
      leafHash := (Tree.leafHashOpt sha256 item).1
      aunts := ((MerkleTree.ofList items).audit (sha256 ∘ Tree.nodeBytes) i).map (·.2.1) }

/-- A function with the two equations. -/
def CometMerkle.standard (sha256 : Bytes → Digest) : CometMerkle sha256 where
  proofsFromByteSlices items :=
    (((MerkleTree.ofList items).root (sha256 ∘ Tree.nodeBytes)).1, items.mapIdx fun i item =>
      { total := items.length
        index := i
        leafHash := (Tree.leafHashOpt sha256 item).1
        aunts := ((MerkleTree.ofList items).audit (sha256 ∘ Tree.nodeBytes) i).map (·.2.1) })
  root_eq _ := rfl
  proofs_eq _ := rfl

variable {sha256 : Bytes → Digest}

/-- A round of the second loop of `ProofsFromMap`. -/
def addProof (proofList : List MerkleProof) (acc : GoMap Bytes MerkleProof × List Bytes)
    (e : Pair × ℕ) : Except Panic (GoMap Bytes MerkleProof × List Bytes) :=
  match proofList[e.2]? with
  | none => .error .indexOutOfRange
  | some proof => .ok (acc.1.insert e.1.key proof, acc.2.set e.2 e.1.key)

/-- `ProofsFromMap`. -/
def proofsFromMap (comet : CometMerkle sha256) (order : Traversal Bytes Slice)
    (m : GoMap Bytes Slice) : Except Panic (Bytes × GoMap Bytes MerkleProof × List Bytes) := do
  let sm ← MerkleMap.fill sha256 order m
  let kvs := sm.sort.kvs
  let trails := comet.proofsFromByteSlices (kvs.map Pair.bytes)
  let proofsAndKeys ← kvs.zipIdx.foldlM (addProof trails.2)
    (∅, List.replicate trails.2.length [])
  return (trails.1, proofsAndKeys)

/-- What the loop leaves for each key, when no key comes twice. -/
theorem foldlM_addProof (proofList : List MerkleProof) (l : List (Pair × ℕ))
    (hl : ∀ e ∈ l, e.2 < proofList.length) (hnodup : (l.map (·.1.key)).Nodup)
    (acc : GoMap Bytes MerkleProof × List Bytes) :
    ∃ r, l.foldlM (addProof proofList) acc = .ok r ∧
      (∀ e ∈ l, r.1.lookup e.1.key = proofList[e.2]?) ∧
      ∀ k, (∀ e ∈ l, e.1.key ≠ k) → r.1.lookup k = acc.1.lookup k := by
  induction l generalizing acc with
  | nil => exact ⟨acc, rfl, (fun e he => by cases he), fun _ _ => rfl⟩
  | cons e l ih =>
    rw [List.map_cons, List.nodup_cons] at hnodup
    obtain ⟨proof, hproof⟩ : ∃ proof, proofList[e.2]? = some proof :=
      ⟨_, List.getElem?_eq_getElem (hl e List.mem_cons_self)⟩
    have hround : addProof proofList acc e =
        .ok (acc.1.insert e.1.key proof, acc.2.set e.2 e.1.key) := by
      rw [addProof, hproof]
    obtain ⟨r, hr, hfound, hother⟩ := ih (fun e he => hl e (List.mem_cons_of_mem _ he)) hnodup.2
      (acc.1.insert e.1.key proof, acc.2.set e.2 e.1.key)
    refine ⟨r, by rw [List.foldlM_cons, hround]; exact hr, ?_, fun k hk => ?_⟩
    · rintro e' he'
      obtain rfl | he' := List.mem_cons.mp he'
      · -- the later rounds are for other keys
        rw [hother _ fun e he heq => hnodup.1 (List.mem_map.mpr ⟨e, he, heq⟩),
          AList.lookup_insert, hproof]
      · exact hfound e' he'
    · rw [hother k fun e he => hk e (List.mem_cons_of_mem _ he)]
      exact AList.lookup_insert_ne (hk e List.mem_cons_self).symm

/-- Each key has one leaf. -/
theorem nodup_keys_sortedPairs (m : GoMap Bytes Slice) :
    ((sortedPairs sha256 m).map Pair.key).Nodup := by
  have hperm : (sortedPairs sha256 m).Perm (m.entries.map (pairOf sha256)) :=
    List.perm_insertionSort Pair.Le _
  rw [(hperm.map Pair.key).nodup_iff, List.map_map]
  exact m.keys_nodup

/-- The proof `p` is that of the leaf for a key and its value. -/
def IsProofOf (sha256 : Bytes → Digest) (m : GoMap Bytes Slice) (k : Bytes) (v : Slice)
    (p : MerkleProof) : Prop :=
  (sortedPairs sha256 m)[p.index]? = some (pairOf sha256 ⟨k, v⟩) ∧
    p.total = (leafItems sha256 m).length ∧
    p.aunts = ((MerkleTree.ofList (leafItems sha256 m)).audit
      (sha256 ∘ Tree.nodeBytes) p.index).map (·.2.1)

/-- **`ProofsFromMap`** returns the root of the map, and for every key its proof. -/
theorem proofsFromMap_eq_ok (comet : CometMerkle sha256) {m : GoMap Bytes Slice}
    (hkeys : ∀ k ∈ m, k ≠ []) (order : Traversal Bytes Slice) :
    ∃ proofs keys, proofsFromMap comet order m =
        .ok ((mapRoot sha256 m).1, proofs, keys) ∧
      ∀ k v, m.lookup k = some v → ∃ p, proofs.lookup k = some p ∧ IsProofOf sha256 m k v p := by
  obtain ⟨sm, hfill, hkvs⟩ := MerkleMap.fill_eq_ok sha256 hkeys order
  have hlength : (comet.proofsFromByteSlices (leafItems sha256 m)).2.length =
      (sortedPairs sha256 m).length := by
    rw [comet.proofs_eq, List.length_mapIdx, leafItems, List.length_map]
  have hnodup : ((sortedPairs sha256 m).zipIdx.map (·.1.key)).Nodup := by
    have hmap : (sortedPairs sha256 m).zipIdx.map (·.1.key) =
        ((sortedPairs sha256 m).zipIdx.map Prod.fst).map Pair.key := by
      rw [List.map_map]
      rfl
    rw [hmap, List.zipIdx_map_fst]
    exact nodup_keys_sortedPairs m
  obtain ⟨r, hr, hfound, -⟩ := foldlM_addProof
    (comet.proofsFromByteSlices (leafItems sha256 m)).2 (sortedPairs sha256 m).zipIdx
    (fun e he => hlength ▸ List.snd_lt_of_mem_zipIdx he) hnodup _
  refine ⟨r.1, r.2, ?_, fun k v hv => ?_⟩
  · rw [proofsFromMap, hfill]
    dsimp only [bind, Except.bind]
    rw [hkvs, ← leafItems, hr, comet.root_eq]
    rfl
  · have hmem : pairOf sha256 ⟨k, v⟩ ∈ sortedPairs sha256 m := mem_sortedPairs.mpr ⟨v, hv, rfl⟩
    obtain ⟨i, hi⟩ := List.mem_iff_getElem?.mp hmem
    have hitem : (leafItems sha256 m)[i]? = some (pairOf sha256 ⟨k, v⟩).bytes := by
      rw [leafItems, List.getElem?_map, hi]
      rfl
    have hproof := hfound (pairOf sha256 ⟨k, v⟩, i) (List.mk_mem_zipIdx_iff_getElem?.mpr hi)
    rw [comet.proofs_eq, List.getElem?_mapIdx, hitem] at hproof
    exact ⟨_, hproof, hi, rfl, rfl⟩

/-! ### Commit infos -/

/-- `types.CommitID`. -/
structure CommitID where
  version : ℤ
  hash : Slice
  deriving DecidableEq

/-- `types.StoreInfo`. -/
structure StoreInfo where
  name : Bytes
  commitId : CommitID
  deriving DecidableEq

/-- `StoreInfo.GetHash`. -/
def StoreInfo.getHash (si : StoreInfo) : Slice := si.commitId.hash

/-- `types.CommitInfo`, without the time stamp, which the hash does not depend on. -/
structure CommitInfo where
  version : ℤ
  storeInfos : List StoreInfo
  deriving DecidableEq

namespace CommitInfo

/-- `CommitInfo.toMap`. -/
def toMap (ci : CommitInfo) : GoMap Bytes Slice :=
  ci.storeInfos.foldl (fun m storeInfo => m.insert storeInfo.name storeInfo.getHash) ∅

/-- `CommitInfo.Hash`. -/
def hash (comet : CometMerkle sha256) (order : Traversal Bytes Slice) (ci : CommitInfo) :
    Except Panic Bytes :=
  if ci.storeInfos.length = 0 then
    .ok (sha256 []).1
  else do
    let proofs ← proofsFromMap comet order ci.toMap
    return if proofs.1.length = 0 then (sha256 []).1 else proofs.1

variable {ci : CommitInfo}

theorem toMap_eq : ci.toMap = (ci.storeInfos.map fun si => (si.name, si.getHash)).foldl
    (fun m e => m.insert e.1 e.2) ∅ := by
  rw [toMap, List.foldl_map]

/-- Only the names of the stores are keys of the map. -/
theorem exists_of_mem_toMap {k : Bytes} (h : k ∈ ci.toMap) :
    ∃ si ∈ ci.storeInfos, si.name = k := by
  by_contra hnot
  have hk : k ∉ (ci.storeInfos.map fun si => (si.name, si.getHash)).map Prod.fst := by
    rw [List.map_map, List.mem_map]
    exact hnot
  obtain ⟨v, hv⟩ := mem_iff_exists_lookup.mp h
  rw [toMap_eq, lookup_foldl_insert_of_notMem hk] at hv
  cases hv

/-- No name is empty. -/
theorem ne_nil_of_mem_toMap (hnames : ∀ si ∈ ci.storeInfos, si.name ≠ []) :
    ∀ k ∈ ci.toMap, k ≠ [] := by
  intro k hk
  obtain ⟨si, hsi, rfl⟩ := exists_of_mem_toMap hk
  exact hnames si hsi

/-- When the names are distinct, the map has the hash of every store. -/
theorem lookup_toMap (hdistinct : (ci.storeInfos.map StoreInfo.name).Nodup) {si : StoreInfo}
    (h : si ∈ ci.storeInfos) : ci.toMap.lookup si.name = some si.getHash := by
  rw [toMap_eq]
  have hnodup : ((ci.storeInfos.map fun si => (si.name, si.getHash)).map Prod.fst).Nodup := by
    rwa [List.map_map]
  exact lookup_foldl_insert_of_nodup hnodup (List.mem_map.mpr ⟨si, h, rfl⟩)

/-- **The hash of a commit info** is the root of its map. -/
theorem hash_eq_ok (comet : CometMerkle sha256)
    (hnames : ∀ si ∈ ci.storeInfos, si.name ≠ []) (order : Traversal Bytes Slice) :
    ci.hash comet order = .ok (mapRoot sha256 ci.toMap).1 := by
  have hkeys := ne_nil_of_mem_toMap hnames
  rw [hash]
  split
  · next hempty =>
    have hmap : leafItems sha256 ci.toMap = [] := by
      rw [leafItems, sortedPairs, toMap, List.length_eq_zero_iff.mp hempty]
      rfl
    rw [mapRoot, hmap, MerkleTree.ofList]
    rfl
  · obtain ⟨proofs, keys, hproofs, -⟩ := proofsFromMap_eq_ok comet hkeys order
    rw [hproofs]
    refine congrArg Except.ok (if_neg ?_)
    rw [(mapRoot sha256 ci.toMap).property]
    decide

end CommitInfo

end MelodiaStore
