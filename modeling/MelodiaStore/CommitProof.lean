import MelodiaStore.CommitInfo

/-!
# Proofs of the Stores

`internal/proofs` and `ProofOpFromMap` of `types/proof.go`: the proof of a store against the hash of
a commit info. The siblings of cometbft's proof become the inner steps of an ics23 proof; whether a
sibling is the left one or the right one is not sent, and `buildPath` computes it from the index of
the leaf and the number of leaves.

ics23 is not a part of the repository. Its `Calculate` is modelled as it is described: a leaf is
hashed with its prefix and with the length of both parts in front of them, a step hashes prefix,
child and suffix, and what is empty is refused.

## Main results

* `proofOp_verifies`: the proof of every store leads to the hash of the commit info.
-/

namespace MelodiaStore

open MerkleTree (audit climb climbStep leaves_ofList ofList)

/-! ### ics23 -/

namespace Ics23

/-- The hashes that the proofs use. -/
inductive HashOp
  | noHash
  | sha256
  deriving DecidableEq

/-- The ways to write a length that the proofs use. -/
inductive LengthOp
  | noPrefix
  | varProto
  deriving DecidableEq

/-- `ics23.LeafOp`. -/
structure LeafOp where
  hash : HashOp
  prehashKey : HashOp
  prehashValue : HashOp
  length : LengthOp
  pfx : Bytes
  deriving DecidableEq

/-- `ics23.InnerOp`. -/
structure InnerOp where
  hash : HashOp
  pfx : Bytes
  suffix : Bytes
  deriving DecidableEq

/-- `ics23.ExistenceProof`. -/
structure ExistenceProof where
  key : Bytes
  value : Slice
  leaf : LeafOp
  path : List InnerOp
  deriving DecidableEq

/-- What `Calculate` refuses. -/
inductive CalculateError
  /-- `Leaf op needs key` -/
  | needsKey
  /-- `Leaf op needs value` -/
  | needsValue
  /-- `Inner op needs child value` -/
  | needsChild
  deriving DecidableEq

variable (sha256 : Bytes → Digest)

/-- `doHashOrNoop`. -/
def doHash : HashOp → Bytes → Bytes
  | .noHash, b => b
  | .sha256, b => (sha256 b).1

/-- `doLengthOp`. -/
def doLength : LengthOp → Bytes → Bytes
  | .noPrefix, b => b
  | .varProto, b => uvarint b.length ++ b

/-- `LeafOp.Apply`. -/
def LeafOp.apply (op : LeafOp) (key : Bytes) (value : Slice) : Except CalculateError Bytes :=
  if key.length = 0 then .error .needsKey
  else if (value.getD []).length = 0 then .error .needsValue
  else .ok (doHash sha256 op.hash (op.pfx ++
    doLength op.length (doHash sha256 op.prehashKey key) ++
    doLength op.length (doHash sha256 op.prehashValue (value.getD []))))

/-- `InnerOp.Apply`. -/
def InnerOp.apply (op : InnerOp) (child : Bytes) : Except CalculateError Bytes :=
  if child.length = 0 then .error .needsChild
  else .ok (doHash sha256 op.hash (op.pfx ++ child ++ op.suffix))

/-- `ExistenceProof.Calculate`. -/
def ExistenceProof.calculate (p : ExistenceProof) : Except CalculateError Bytes := do
  let leaf ← p.leaf.apply sha256 p.key p.value
  p.path.foldlM (fun child op => op.apply sha256 child) leaf

end Ics23

/-! ### Converting a proof -/

namespace Proofs

open Ics23

/-- `getSplitPoint` of `internal/proofs`, a copy of the one in `internal/tree`. -/
def getSplitPoint (length : ℕ) : ℕ := Tree.getSplitPoint length

/-- `buildPath`. -/
def buildPath (idx total : ℕ) : List Bool :=
  if total < 2 then []
  else
    let numLeft := getSplitPoint total
    let goLeft := decide (idx < numLeft)
    if goLeft then buildPath idx numLeft ++ [goLeft]
    else buildPath (idx - numLeft) (total - numLeft) ++ [goLeft]
termination_by total
decreasing_by
  · have heq : getSplitPoint total = splitPoint total := Tree.getSplitPoint_eq (by omega)
    rw [heq]
    exact splitPoint_lt (by omega)
  · have heq : getSplitPoint total = splitPoint total := Tree.getSplitPoint_eq (by omega)
    have hpos := splitPoint_pos total
    rw [heq]
    omega

/-- `convertLeafOp`. -/
def convertLeafOp : LeafOp where
  hash := .sha256
  prehashKey := .noHash
  prehashValue := .sha256
  length := .varProto
  pfx := [0]

/-- The inner step for a sibling. -/
def convertInnerOp (auntRight : Bool) (aunt : Bytes) : InnerOp :=
  if auntRight then { hash := .sha256, pfx := [1], suffix := aunt }
  else { hash := .sha256, pfx := 1 :: aunt, suffix := [] }

/-- The errors of `ProofOpFromMap`. -/
inductive ProofError
  /-- `calculated a path different length (%d) than provided by SimpleProof (%d)` -/
  | pathLength (path aunts : ℕ)
  /-- `ProofOp for %s but not registered store name` -/
  | notRegistered (storeName : Bytes)
  /-- `could not convert simple proof to existence proof: %w` -/
  | convert (e : ProofError)

/-- `convertInnerOps`. -/
def convertInnerOps (p : MerkleProof) : Except ProofError (List InnerOp) :=
  let path := buildPath p.index p.total
  if p.aunts.length ≠ path.length then .error (.pathLength path.length p.aunts.length)
  else .ok (List.zipWith convertInnerOp path p.aunts)

/-- `ConvertExistenceProof`. -/
def convertExistenceProof (p : MerkleProof) (key : Bytes) (value : Slice) :
    Except ProofError ExistenceProof := do
  let path ← convertInnerOps p
  return { key, value, leaf := convertLeafOp, path }

end Proofs

/-- `crypto.ProofOp` of cometbft. -/
structure ProofOp where
  type : String
  key : Bytes
  data : Bytes

/-- `ProofOpFromMap`; `marshal` writes the existence proof in its protobuf form. -/
def proofOpFromMap {sha256 : Bytes → Digest} (comet : CometMerkle sha256)
    (marshal : Ics23.ExistenceProof → Bytes) (order : Traversal Bytes Slice)
    (cmap : GoMap Bytes Slice) (storeName : Bytes) :
    Except Panic (Except Proofs.ProofError ProofOp) := do
  let proofs ← proofsFromMap comet order cmap
  match proofs.2.1.lookup storeName with
  | none => return .error (.notRegistered storeName)
  | some proof =>
    match Proofs.convertExistenceProof proof storeName ((cmap.lookup storeName).getD none) with
    | .error e => return .error (.convert e)
    | .ok existProof =>
      return .ok { type := "ics23:simple", key := storeName, data := marshal existProof }

/-! ### The proof leads to the root -/

namespace Proofs

open Ics23

variable {sha256 : Bytes → Digest} {value : Slice} {m : GoMap Bytes Slice} {key : Bytes}
  {p : MerkleProof}

/-- **`buildPath`** computes the sides of the audit path. -/
theorem buildPath_eq (hash : Node Bytes Digest → Digest) (items : List Bytes) (i : ℕ) :
    buildPath i items.length = ((ofList items).audit hash i).map (·.1) := by
  induction items using MerkleTree.ofList_induction generalizing i with
  | nil | singleton item => rw [buildPath, ofList]; rfl
  | split items h ihl ihr =>
    have hlt := splitPoint_lt h
    have htake : (items.take (splitPoint items.length)).length = splitPoint items.length := by
      rw [List.length_take]
      omega
    have hleaves : (ofList (items.take (splitPoint items.length))).leaves.length =
        splitPoint items.length := by
      rw [leaves_ofList, htake]
    rw [htake] at ihl
    rw [List.length_drop] at ihr
    rw [buildPath, if_neg (by omega), MerkleTree.ofList_of_two_le h, audit, hleaves,
      getSplitPoint, Tree.getSplitPoint_eq h]
    by_cases hi : i < splitPoint items.length
    · simp [hi, ihl]
    · simp [hi, ihr]

/-- The inner steps climb the path. -/
theorem foldlM_apply (path : List (Bool × Digest)) (h : Digest) :
    (path.map fun step => convertInnerOp step.1 step.2.1).foldlM
        (fun child op => op.apply sha256 child) h.1 =
      .ok (climb (sha256 ∘ Tree.nodeBytes) h path).1 := by
  induction path generalizing h with
  | nil => rfl
  | cons step path ih =>
    have hstep : (convertInnerOp step.1 step.2.1).apply sha256 h.1 =
        .ok (climbStep (sha256 ∘ Tree.nodeBytes) h step).1 := by
      rw [InnerOp.apply, if_neg (by rw [h.2]; decide), convertInnerOp, climbStep]
      split
      · rfl
      · rw [List.append_nil]
        rfl
    rw [List.map_cons, List.foldlM_cons, hstep]
    exact ih _

/-- The leaf of a proof is the leaf of the tree. -/
theorem apply_convertLeafOp (hkey : key ≠ []) (hvalue : value.getD [] ≠ []) :
    convertLeafOp.apply sha256 key value =
      .ok ((sha256 ∘ Tree.nodeBytes) (.leaf (pairOf sha256 ⟨key, value⟩).bytes)).1 := by
  rw [LeafOp.apply, if_neg (mt List.length_eq_zero_iff.mp hkey),
    if_neg (mt List.length_eq_zero_iff.mp hvalue)]
  simp [convertLeafOp, doHash, doLength, Tree.nodeBytes, Pair.bytes, pairOf]

/-- The siblings of a proof of a leaf become the steps of the audit path. -/
theorem convertInnerOps_eq_ok (hp : IsProofOf sha256 m key value p) :
    convertInnerOps p = .ok (((ofList (leafItems sha256 m)).audit
      (sha256 ∘ Tree.nodeBytes) p.index).map fun step => convertInnerOp step.1 step.2.1) := by
  obtain ⟨-, htotal, haunts⟩ := hp
  have hsides := buildPath_eq (sha256 ∘ Tree.nodeBytes) (leafItems sha256 m) p.index
  rw [convertInnerOps, htotal, hsides, haunts, List.length_map, List.length_map,
    if_neg (not_not.mpr rfl), List.zipWith_map, List.zipWith_self]

/-- The existence proof of the leaf at an index of the tree of a map. -/
structure IsLeafProof (sha256 : Bytes → Digest) (m : GoMap Bytes Slice) (i : ℕ)
    (proof : ExistenceProof) : Prop where
  pair_eq : (sortedPairs sha256 m)[i]? = some (pairOf sha256 ⟨proof.key, proof.value⟩)
  leaf_eq : proof.leaf = convertLeafOp
  path_eq : proof.path = ((ofList (leafItems sha256 m)).audit
    (sha256 ∘ Tree.nodeBytes) i).map fun step => convertInnerOp step.1 step.2.1

/-- A proof of a leaf leads to the root. -/
theorem IsLeafProof.calculate_eq {i : ℕ} {proof : ExistenceProof} (h : IsLeafProof sha256 m i proof)
    (hkey : proof.key ≠ []) (hvalue : proof.value.getD [] ≠ []) :
    proof.calculate sha256 = .ok (mapRoot sha256 m).1 := by
  rw [ExistenceProof.calculate, h.leaf_eq, apply_convertLeafOp hkey hvalue, h.path_eq]
  refine (foldlM_apply _ _).trans ?_
  rw [MerkleTree.climb_audit]
  · rfl
  · rw [leaves_ofList, leafItems, List.getElem?_map, h.pair_eq]
    rfl

/-- The proof of a leaf is converted. -/
theorem exists_convertExistenceProof (hp : IsProofOf sha256 m key value p) :
    ∃ proof, convertExistenceProof p key value = .ok proof ∧ proof.key = key ∧
      proof.value = value ∧ IsLeafProof sha256 m p.index proof := by
  refine ⟨_, by rw [convertExistenceProof, convertInnerOps_eq_ok hp]; rfl, rfl, rfl, ?_⟩
  exact ⟨hp.1, rfl, rfl⟩

/-- The proof of a leaf is converted, and leads to the root. -/
theorem convertExistenceProof_eq_ok (hp : IsProofOf sha256 m key value p) (hkey : key ≠ [])
    (hvalue : value.getD [] ≠ []) :
    ∃ proof, convertExistenceProof p key value = .ok proof ∧ proof.key = key ∧
      proof.value = value ∧ proof.leaf = convertLeafOp ∧
      proof.calculate sha256 = .ok (mapRoot sha256 m).1 := by
  obtain ⟨proof, hconvert, rfl, rfl, hleaf⟩ := exists_convertExistenceProof hp
  exact ⟨proof, hconvert, rfl, rfl, hleaf.leaf_eq, hleaf.calculate_eq hkey hvalue⟩

end Proofs

/-- **Store proofs verify against the app hash.** For every store of a commit info with distinct,
non-empty names and non-empty hashes, `ProofOpFromMap` builds an existence proof of its hash; what
ics23 calculates from the proof is the hash of the commit info, and `HashFromMap` of its map. -/
theorem proofOp_verifies {sha256 : Bytes → Digest} (comet : CometMerkle sha256)
    (marshal : Ics23.ExistenceProof → Bytes) (ci : CommitInfo)
    (hnames : ∀ si ∈ ci.storeInfos, si.name ≠ [])
    (hdistinct : (ci.storeInfos.map StoreInfo.name).Nodup)
    (hhashes : ∀ si ∈ ci.storeInfos, si.getHash.getD [] ≠ [])
    (order order' order'' : Traversal Bytes Slice) (si : StoreInfo) (hsi : si ∈ ci.storeInfos) :
    ∃ (proof : Ics23.ExistenceProof) (root : Digest),
      proofOpFromMap comet marshal order ci.toMap si.name =
        .ok (.ok { type := "ics23:simple", key := si.name, data := marshal proof }) ∧
      proof.key = si.name ∧ proof.value = si.getHash ∧ proof.leaf = Proofs.convertLeafOp ∧
      proof.calculate sha256 = .ok root.1 ∧ ci.hash comet order' = .ok root.1 ∧
      hashFromMap sha256 order'' ci.toMap = .ok root := by
  have hkeys := CommitInfo.ne_nil_of_mem_toMap hnames
  have hlookup := CommitInfo.lookup_toMap hdistinct hsi
  obtain ⟨proofs, keys, hproofs, hfound⟩ := proofsFromMap_eq_ok comet hkeys order
  obtain ⟨p, hp, hproof⟩ := hfound si.name si.getHash hlookup
  obtain ⟨proof, hconvert, hkey, hvalue, hleaf, hcalculate⟩ :=
    Proofs.convertExistenceProof_eq_ok hproof (hnames si hsi) (hhashes si hsi)
  refine ⟨proof, mapRoot sha256 ci.toMap, ?_, hkey, hvalue, hleaf, hcalculate,
    CommitInfo.hash_eq_ok comet hnames order', hashFromMap_eq_ok sha256 hkeys order''⟩
  rw [proofOpFromMap, hproofs]
  dsimp only [bind, Except.bind]
  rw [hp]
  dsimp only
  rw [hlookup, Option.getD_some, hconvert]
  rfl

/-- The proof of the second of two stores. -/
theorem proofOp_verifies_of_twoStores :
    ∃ (ci : CommitInfo) (proof : Ics23.ExistenceProof) (root : Digest),
      ci = ⟨1, [⟨[0x61], ⟨1, some [1]⟩⟩, ⟨[0x62], ⟨1, some [2]⟩⟩]⟩ ∧
      proof.key = [0x62] ∧ proof.value = some [2] ∧
      proof.calculate lengthAndLast = .ok root.1 ∧
      ci.hash (.standard lengthAndLast) .listed = .ok root.1 := by
  obtain ⟨proof, root, -, hkey, hvalue, -, hcalculate, hhash, -⟩ :=
    proofOp_verifies (.standard lengthAndLast) (fun _ => [])
      ⟨1, [⟨[0x61], ⟨1, some [1]⟩⟩, ⟨[0x62], ⟨1, some [2]⟩⟩]⟩ (by decide) (by decide) (by decide)
      .listed .listed .listed ⟨[0x62], ⟨1, some [2]⟩⟩ (by decide)
  exact ⟨_, proof, root, rfl, hkey, hvalue, hcalculate, hhash⟩

end MelodiaStore
