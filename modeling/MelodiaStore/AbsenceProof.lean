import MelodiaStore.CommitProof
import MelodiaStore.Store

/-!
# Proofs of Absence

`internal/proofs/create.go`: proofs that a key is in a map, or that it is not. A key that is not
in the map is proved absent by the existence proofs of its two neighbours, which a verifier takes
for adjacent leaves of the tree. The neighbours are looked up in a list of the keys that is sorted
for this purpose; the leaves are those of `ProofsFromMap`, which sorts pairs of keys and hashes.

A `range` over a map may go in any order, a different one each time; the sorted keys and the
proofs do not depend on it.

## Main results

* `createNonMembershipProof_exact`: a proof of absence is made exactly for the keys that are not
  in the map, and consists of the proofs of the neighbours, which are adjacent leaves.
-/

namespace MelodiaStore

namespace Proofs

open Ics23

/-! ### Creating proofs -/

/-- The errors of `create.go`. -/
inductive CreateError
  /-- `ErrEmptyKey`: `key is empty` -/
  | emptyKey
  /-- `ErrEmptyKeyInData`: `data contains empty key` -/
  | emptyKeyInData
  /-- `cannot create non-membership proof if key is in map` -/
  | keyInMap
  /-- `cannot make existence proof if key is not in map` -/
  | keyNotInMap
  /-- `returned no proof for key` -/
  | noProof
  /-- an error of `ConvertExistenceProof` -/
  | convert (e : ProofError)

/-- `ics23.NonExistenceProof`. -/
structure NonExistenceProof where
  key : Bytes
  left : Option ExistenceProof
  right : Option ExistenceProof

/-- `ics23.CommitmentProof`, in the two forms that are made here. -/
inductive CommitmentProof
  | exist (proof : ExistenceProof)
  | nonexist (proof : NonExistenceProof)

/-- `SortedKeys`. -/
def sortedKeys (order : Traversal Bytes Slice) (data : GoMap Bytes Slice) : List Bytes :=
  sortStrings ((order.visit data).map Sigma.fst)

/-- `sort.SearchStrings`. -/
def searchStrings (keys : List Bytes) (key : Bytes) : ℕ :=
  binarySearch (fun i => decide (key ≤ keys.getD i [])) 0 keys.length

section Create

variable {sha256 : Bytes → Digest} (comet : CometMerkle sha256)

/-- `createExistenceProof`. -/
def createExistenceProof (order : Traversal Bytes Slice) (data : GoMap Bytes Slice)
    (key : Bytes) : Except Panic (Except CreateError ExistenceProof) :=
  if (data.lookup []).isSome then .ok (.error .emptyKeyInData)
  else
    match data.lookup key with
    | none => .ok (.error .keyNotInMap)
    | some value => do
      let proofs ← proofsFromMap comet order data
      match proofs.2.1.lookup key with
      | none => return .error .noProof
      | some proof => return (convertExistenceProof proof key value).mapError .convert

/-- `CreateMembershipProof`. -/
def createMembershipProof (order : Traversal Bytes Slice) (data : GoMap Bytes Slice)
    (key : Bytes) : Except Panic (Except CreateError CommitmentProof) :=
  if key.length = 0 then .ok (.error .emptyKey)
  else do
    let exist ← createExistenceProof comet order data key
    return exist.map .exist

/-- The existence proof of the key at an index of the sorted keys. -/
def proofAt (order : Traversal Bytes Slice) (data : GoMap Bytes Slice) (keys : List Bytes)
    (i : ℕ) : Except Panic (Except CreateError ExistenceProof) :=
  match keys[i]? with
  | none => .error .indexOutOfRange
  | some key => createExistenceProof comet order data key

/-- The left proof, unless the key is left of the entire map. -/
def leftProof (order : Traversal Bytes Slice) (data : GoMap Bytes Slice) (keys : List Bytes)
    (rightidx : ℕ) : Except Panic (Except CreateError (Option ExistenceProof)) :=
  if 1 ≤ rightidx then do
    let proof ← proofAt comet order data keys (rightidx - 1)
    return proof.map some
  else .ok (.ok none)

/-- The right proof, unless the key is right of the entire map. -/
def rightProof (order : Traversal Bytes Slice) (data : GoMap Bytes Slice) (keys : List Bytes)
    (rightidx : ℕ) : Except Panic (Except CreateError (Option ExistenceProof)) :=
  if rightidx < keys.length then do
    let proof ← proofAt comet order data keys rightidx
    return proof.map some
  else .ok (.ok none)

/-- `CreateNonMembershipProof`; the orders are those of the three `range` loops. -/
def createNonMembershipProof (order order' order'' : Traversal Bytes Slice)
    (data : GoMap Bytes Slice) (key : Bytes) :
    Except Panic (Except CreateError CommitmentProof) :=
  if key.length = 0 then .ok (.error .emptyKey)
  else if (data.lookup key).isSome then .ok (.error .keyInMap)
  else do
    let keys := sortedKeys order data
    let rightidx := searchStrings keys key
    match ← leftProof comet order' data keys rightidx with
    | .error e => return .error e
    | .ok left =>
      match ← rightProof comet order'' data keys rightidx with
      | .error e => return .error e
      | .ok right => return .ok (.nonexist { key, left, right })

end Create

/-! ### The order of the keys and the order of the leaves -/

variable {sha256 : Bytes → Digest} {m : GoMap Bytes Slice} {key k : Bytes} {keys : List Bytes}
  {i : ℕ}

/-- The keys are those of the map. -/
theorem mem_sortedKeys {order : Traversal Bytes Slice} : k ∈ sortedKeys order m ↔ k ∈ m := by
  rw [sortedKeys, mem_sortStrings, ((order.perm m).map Sigma.fst).mem_iff]
  rfl

/-- The keys are sorted. -/
theorem pairwise_sortedKeys (order : Traversal Bytes Slice) (m : GoMap Bytes Slice) :
    (sortedKeys order m).Pairwise (· < ·) :=
  sortStrings_pairwise (((order.perm m).map Sigma.fst).nodup_iff.mpr m.keys_nodup)

/-- **The two orders are one**: the keys of the leaves are the sorted keys. -/
theorem map_key_sortedPairs (sha256 : Bytes → Digest) (order : Traversal Bytes Slice)
    (m : GoMap Bytes Slice) : (sortedPairs sha256 m).map Pair.key = sortedKeys order m := by
  have hle : (sortedPairs sha256 m).Pairwise fun a b => a.key ≤ b.key := by
    refine (List.pairwise_insertionSort Pair.Le _).imp fun {a b} hab => ?_
    rcases Prod.Lex.toLex_le_toLex.mp ((Pair.le_iff a b).mp hab) with hlt | ⟨heq, -⟩
    · exact hlt.le
    · exact heq.le
  have hlt : ((sortedPairs sha256 m).map Pair.key).Pairwise (· < ·) :=
    ((List.pairwise_map.mpr hle).and (nodup_keys_sortedPairs m)).imp fun hab =>
      lt_of_le_of_ne hab.1 hab.2
  refine eq_of_pairwise_of_asymm (R := (· < ·)) lt_asymm hlt (pairwise_sortedKeys order m) ?_
  intro k
  rw [mem_sortedKeys, List.mem_map, mem_iff_exists_lookup]
  constructor
  · rintro ⟨p, hp, rfl⟩
    obtain ⟨v, hv, -⟩ := mem_sortedPairs.mp hp
    exact ⟨v, hv⟩
  · rintro ⟨v, hv⟩
    exact ⟨pairOf sha256 ⟨k, v⟩, mem_sortedPairs.mpr ⟨v, hv, rfl⟩, rfl⟩

/-- Sorted keys are ordered as their indices. -/
theorem le_of_getElem? (hkeys : keys.Pairwise (· < ·)) {j : ℕ} {a b : Bytes}
    (ha : keys[i]? = some a) (hb : keys[j]? = some b) (hij : i ≤ j) : a ≤ b := by
  obtain ⟨hi, rfl⟩ := List.getElem?_eq_some_iff.mp ha
  obtain ⟨hj, rfl⟩ := List.getElem?_eq_some_iff.mp hb
  rcases hij.lt_or_eq with hlt | rfl
  · exact (List.pairwise_iff_getElem.mp hkeys i j hi hj hlt).le
  · exact le_rfl

/-- The keys before an index are those below a key. -/
def CutAt (keys : List Bytes) (key : Bytes) (r : ℕ) : Prop :=
  ∀ i k, keys[i]? = some k → (i < r ↔ k < key)

/-- **The search** cuts the sorted keys into those below the key and the others. -/
theorem searchStrings_spec (hkeys : keys.Pairwise (· < ·)) (key : Bytes) :
    searchStrings keys key ≤ keys.length ∧ CutAt keys key (searchStrings keys key) := by
  have hget : ∀ {i k}, keys[i]? = some k → keys.getD i [] = k := by
    intro i k hi
    rw [List.getD_eq_getElem?_getD, hi, Option.getD_some]
  have hmono : ∀ a b, a ≤ b → b < keys.length → decide (key ≤ keys.getD a []) = true →
      decide (key ≤ keys.getD b []) = true := by
    intro a b hab hb hpass
    have hka := List.getElem?_eq_getElem (lt_of_le_of_lt hab hb)
    have hkb := List.getElem?_eq_getElem hb
    rw [decide_eq_true_iff, hget hka] at hpass
    rw [decide_eq_true_iff, hget hkb]
    exact hpass.trans (le_of_getElem? hkeys hka hkb hab)
  obtain ⟨hlen, hbelow, habove⟩ := binarySearch_spec hmono (Nat.zero_le _) le_rfl
    (fun a ha => absurd ha (Nat.not_lt_zero a)) (fun a ha han => absurd han (not_lt.mpr ha))
  refine ⟨hlen, fun i k hi => ⟨fun hlt => ?_, fun hlt => ?_⟩⟩
  · have hnot := of_decide_eq_false (hbelow i hlt)
    rwa [hget hi, not_le] at hnot
  · by_contra hge
    have hpass := of_decide_eq_true
      (habove i (not_lt.mp hge) (List.getElem?_eq_some_iff.mp hi).1)
    rw [hget hi] at hpass
    exact absurd hlt (not_lt.mpr hpass)

section Cut

variable {keys : List Bytes} {r : ℕ}

/-- The key before the cut is the greatest one below. -/
theorem CutAt.isGreatest (h : CutAt keys key r) (hkeys : keys.Pairwise (· < ·)) (hr : 1 ≤ r)
    (hk : keys[r - 1]? = some k) : IsGreatest {k | k ∈ keys ∧ k < key} k := by
  refine ⟨⟨List.mem_of_getElem? hk, (h _ _ hk).mp (by omega)⟩, ?_⟩
  rintro k' ⟨hmem, hlt⟩
  obtain ⟨i, hi⟩ := List.mem_iff_getElem?.mp hmem
  have hbefore : i < r := (h i k' hi).mpr hlt
  exact le_of_getElem? hkeys hi hk (by omega)

/-- The key behind the cut is the least one above, if the key itself is not there. -/
theorem CutAt.isLeast (h : CutAt keys key r) (hkeys : keys.Pairwise (· < ·)) (hkey : key ∉ keys)
    (hk : keys[r]? = some k) : IsLeast {k | k ∈ keys ∧ key < k} k := by
  have hmem := List.mem_of_getElem? hk
  have hle : key ≤ k := not_lt.mp fun hlt => Nat.lt_irrefl r ((h _ _ hk).mpr hlt)
  have hne : key ≠ k := fun heq => hkey (heq ▸ hmem)
  refine ⟨⟨hmem, lt_of_le_of_ne hle hne⟩, ?_⟩
  rintro k' ⟨hmem', hlt⟩
  obtain ⟨i, hi⟩ := List.mem_iff_getElem?.mp hmem'
  have hbehind : ¬ i < r := fun hi' => lt_asymm hlt ((h i k' hi).mp hi')
  exact le_of_getElem? hkeys hk hi (not_lt.mp hbehind)

/-- A cut at the front leaves nothing below. -/
theorem CutAt.not_lt_of_zero (h : CutAt keys key 0) : ∀ k ∈ keys, ¬ k < key := by
  intro k hmem hlt
  obtain ⟨i, hi⟩ := List.mem_iff_getElem?.mp hmem
  exact Nat.not_lt_zero i ((h i k hi).mpr hlt)

/-- A cut at the end leaves nothing above. -/
theorem CutAt.not_gt_of_length (h : CutAt keys key r) (hr : keys.length ≤ r) :
    ∀ k ∈ keys, ¬ key < k := by
  intro k hmem hgt
  obtain ⟨i, hi⟩ := List.mem_iff_getElem?.mp hmem
  have hlt : i < r := lt_of_lt_of_le (List.getElem?_eq_some_iff.mp hi).1 hr
  exact lt_asymm hgt ((h i k hi).mp hlt)

end Cut

/-! ### The proofs -/

/-- **The existence proof of a key** is that of its leaf. -/
theorem createExistenceProof_eq_ok (comet : CometMerkle sha256) (hkeys : ∀ k ∈ m, k ≠ [])
    (order : Traversal Bytes Slice) (hi : ((sortedPairs sha256 m).map Pair.key)[i]? = some k) :
    ∃ proof, createExistenceProof comet order m k = .ok (.ok proof) ∧ proof.key = k ∧
      m.lookup proof.key = some proof.value ∧ IsLeafProof sha256 m i proof := by
  obtain ⟨pair, hpair, rfl⟩ := List.mem_map.mp (List.mem_of_getElem? hi)
  obtain ⟨v, hv, -⟩ := mem_sortedPairs.mp hpair
  have hempty : (m.lookup []).isSome = false := by
    rw [Option.isSome_eq_false_iff, Option.isNone_iff_eq_none, AList.lookup_eq_none]
    exact fun hmem => hkeys [] hmem rfl
  obtain ⟨proofs, keys, hproofs, hfound⟩ := proofsFromMap_eq_ok comet hkeys order
  obtain ⟨p, hp, hproof⟩ := hfound pair.key v hv
  obtain ⟨proof, hconvert, hkey, rfl, hleaf⟩ := exists_convertExistenceProof hproof
  -- the key is at one index only
  have hindex : p.index = i := by
    have hp' : ((sortedPairs sha256 m).map Pair.key)[p.index]? = some pair.key := by
      rw [List.getElem?_map, hproof.1]
      rfl
    exact (List.getElem?_inj (List.getElem?_eq_some_iff.mp hp').1 (nodup_keys_sortedPairs m)).mp
      (hp'.trans hi.symm)
  refine ⟨proof, ?_, hkey, hkey.symm ▸ hv, hindex ▸ hleaf⟩
  rw [createExistenceProof, hempty, if_neg Bool.false_ne_true, hv]
  dsimp only
  rw [hproofs]
  dsimp only [bind, Except.bind]
  rw [hp]
  dsimp only
  rw [hconvert]
  rfl

/-- **Membership.** The proof of a key in the map is that of its leaf. -/
theorem createMembershipProof_eq_ok (comet : CometMerkle sha256) (hkeys : ∀ k ∈ m, k ≠ [])
    (order : Traversal Bytes Slice) (hk : k ∈ m) :
    ∃ i proof, createMembershipProof comet order m k = .ok (.ok (.exist proof)) ∧
      proof.key = k ∧ m.lookup proof.key = some proof.value ∧ IsLeafProof sha256 m i proof := by
  have hmem : k ∈ (sortedPairs sha256 m).map Pair.key := by
    rw [map_key_sortedPairs sha256 order, mem_sortedKeys]
    exact hk
  obtain ⟨i, hi⟩ := List.mem_iff_getElem?.mp hmem
  obtain ⟨proof, hproof, hspec⟩ := createExistenceProof_eq_ok comet hkeys order hi
  refine ⟨i, proof, ?_, hspec⟩
  rw [createMembershipProof, if_neg (mt List.length_eq_zero_iff.mp (hkeys k hk)), hproof]
  rfl

/-- The second of three keys, in a map that is met backwards. -/
theorem createMembershipProof_eq_ok_of_three : ∃ (m : GoMap Bytes Slice) (i : ℕ)
    (proof : ExistenceProof), m.keys = [[3], [1], [2]] ∧ createMembershipProof
        (.standard lengthAndLast) Traversal.listed.backwards m [2] = .ok (.ok (.exist proof)) ∧
      proof.value = some [6] ∧ IsLeafProof lengthAndLast m i proof := by
  obtain ⟨i, proof, h, hkey, hvalue, hleaf⟩ := createMembershipProof_eq_ok (k := [2])
    (m := ((AList.singleton [2] (some [6])).insert [1] (some [5])).insert [3] (some [7]))
    (.standard lengthAndLast) (by decide) Traversal.listed.backwards (by decide)
  rw [hkey] at hvalue
  exact ⟨_, i, proof, rfl, h, (Option.some.inj hvalue).symm, hleaf⟩

/-- The left part of a proof of absence, where `r` is the index of the first leaf that is not
below the key: the proof of the leaf before it, which has the greatest key below. -/
def LeftExact (sha256 : Bytes → Digest) (m : GoMap Bytes Slice) (key : Bytes) (r : ℕ)
    (left : Option ExistenceProof) : Prop :=
  (left = none ∧ r = 0 ∧ ∀ k ∈ m, ¬ k < key) ∨
    ∃ proof, left = some proof ∧ 1 ≤ r ∧ IsGreatest {k | k ∈ m ∧ k < key} proof.key ∧
      m.lookup proof.key = some proof.value ∧ IsLeafProof sha256 m (r - 1) proof

/-- The right part: the proof of the leaf at `r`, which has the least key above. -/
def RightExact (sha256 : Bytes → Digest) (m : GoMap Bytes Slice) (key : Bytes) (r : ℕ)
    (right : Option ExistenceProof) : Prop :=
  (right = none ∧ r = (sortedPairs sha256 m).length ∧ ∀ k ∈ m, ¬ key < k) ∨
    ∃ proof, right = some proof ∧ r < (sortedPairs sha256 m).length ∧
      IsLeast {k | k ∈ m ∧ key < k} proof.key ∧
      m.lookup proof.key = some proof.value ∧ IsLeafProof sha256 m r proof

section Neighbours

variable (comet : CometMerkle sha256) (hkeys : ∀ k ∈ m, k ≠ [])
  (order order' order'' : Traversal Bytes Slice) {r : ℕ}

include hkeys

/-- The proof of the key at an index is that of its leaf. -/
theorem proofAt_eq_ok {i : ℕ} (hi : (sortedKeys order m)[i]? = some k) :
    ∃ proof, proofAt comet order' m (sortedKeys order m) i = .ok (.ok proof) ∧ proof.key = k ∧
      m.lookup proof.key = some proof.value ∧ IsLeafProof sha256 m i proof := by
  rw [proofAt, hi]
  rw [← map_key_sortedPairs sha256 order m] at hi
  exact createExistenceProof_eq_ok comet hkeys order' hi

section

variable (hlen : r ≤ (sortedKeys order m).length) (hcut : CutAt (sortedKeys order m) key r)
include hlen hcut

/-- The left part. -/
theorem leftProof_eq_ok : ∃ left, leftProof comet order' m (sortedKeys order m) r = .ok (.ok left) ∧
      LeftExact sha256 m key r left := by
  rw [leftProof]
  by_cases hr : 1 ≤ r
  · obtain ⟨k, hk⟩ : ∃ k, (sortedKeys order m)[r - 1]? = some k :=
      ⟨_, List.getElem?_eq_getElem (by omega)⟩
    obtain ⟨proof, hproof, rfl, hspec⟩ := proofAt_eq_ok comet hkeys order order' hk
    have hgreatest := hcut.isGreatest (pairwise_sortedKeys order m) hr hk
    simp only [mem_sortedKeys] at hgreatest
    refine ⟨some proof, ?_, .inr ⟨proof, rfl, hr, hgreatest, hspec⟩⟩
    rw [if_pos hr, hproof]
    rfl
  · obtain rfl : r = 0 := by omega
    refine ⟨none, if_neg hr, .inl ⟨rfl, rfl, fun k hk => ?_⟩⟩
    exact hcut.not_lt_of_zero k (mem_sortedKeys.mpr hk)

/-- The right part. -/
theorem rightProof_eq_ok (hkey : key ∉ m) :
    ∃ right, rightProof comet order' m (sortedKeys order m) r = .ok (.ok right) ∧
      RightExact sha256 m key r right := by
  have hlength : (sortedPairs sha256 m).length = (sortedKeys order m).length := by
    rw [← map_key_sortedPairs sha256 order m, List.length_map]
  rw [rightProof]
  by_cases hr : r < (sortedKeys order m).length
  · obtain ⟨k, hk⟩ : ∃ k, (sortedKeys order m)[r]? = some k := ⟨_, List.getElem?_eq_getElem hr⟩
    obtain ⟨proof, hproof, rfl, hspec⟩ := proofAt_eq_ok comet hkeys order order' hk
    have hleast := hcut.isLeast (pairwise_sortedKeys order m) (mt mem_sortedKeys.mp hkey) hk
    simp only [mem_sortedKeys] at hleast
    refine ⟨some proof, ?_, .inr ⟨proof, rfl, hlength ▸ hr, hleast, hspec⟩⟩
    rw [if_pos hr, hproof]
    rfl
  · refine ⟨none, if_neg hr, .inl ⟨rfl, by omega, fun k hk => ?_⟩⟩
    exact hcut.not_gt_of_length (not_lt.mp hr) k (mem_sortedKeys.mpr hk)

end

/-- A key that is not in the map has a proof of absence, with its two neighbours. -/
theorem exists_createNonMembershipProof (hne : key ≠ []) (hkey : key ∉ m) :
    ∃ left right r, createNonMembershipProof comet order order' order'' m key =
        .ok (.ok (.nonexist ⟨key, left, right⟩)) ∧
      LeftExact sha256 m key r left ∧ RightExact sha256 m key r right := by
  obtain ⟨hlen, hcut⟩ := searchStrings_spec (pairwise_sortedKeys order m) key
  obtain ⟨left, hleft, hleftexact⟩ := leftProof_eq_ok comet hkeys order order' hlen hcut
  obtain ⟨right, hright, hrightexact⟩ :=
    rightProof_eq_ok comet hkeys order order'' hlen hcut hkey
  refine ⟨left, right, _, ?_, hleftexact, hrightexact⟩
  have hnone : ¬ (m.lookup key).isSome = true := by
    rw [AList.lookup_eq_none.mpr hkey]
    exact Bool.false_ne_true
  rw [createNonMembershipProof, if_neg (mt List.length_eq_zero_iff.mp hne), if_neg hnone]
  dsimp only
  rw [hleft]
  dsimp only [bind, Except.bind]
  rw [hright]
  rfl

/-- **Proofs of absence name the true neighbours.** For a map without an empty key and a key
that is not empty, a proof of absence is refused exactly when the key is in the map. Otherwise
there is an index `r` of the leaves such that the left proof is that of the leaf at `r - 1`, the
greatest key below, and the right proof that of the leaf at `r`, the least key above; there is
no left one exactly where `r` is the first index, and no right one where `r` is behind the
last. -/
theorem createNonMembershipProof_exact (hne : key ≠ []) :
    ((∃ e, createNonMembershipProof comet order order' order'' m key = .ok (.error e)) ↔
      key ∈ m) ∧
    (key ∉ m → ∃ left right r, createNonMembershipProof comet order order' order'' m key =
        .ok (.ok (.nonexist ⟨key, left, right⟩)) ∧
      LeftExact sha256 m key r left ∧ RightExact sha256 m key r right) := by
  refine ⟨⟨?_, fun hkey => ?_⟩,
    exists_createNonMembershipProof comet hkeys order order' order'' hne⟩
  · rintro ⟨e, he⟩
    by_contra hkey
    obtain ⟨left, right, r, hok, -⟩ :=
      exists_createNonMembershipProof comet hkeys order order' order'' hne hkey
    rw [hok] at he
    cases he
  · refine ⟨.keyInMap, ?_⟩
    rw [createNonMembershipProof, if_neg (mt List.length_eq_zero_iff.mp hne), if_pos]
    exact AList.lookup_isSome.mpr hkey

end Neighbours

/-- A key between the two keys of a map. -/
theorem createNonMembershipProof_exact_of_two : ∃ (m : GoMap Bytes Slice)
    (left right : Option ExistenceProof) (r : ℕ),
    m.keys = [[3], [1]] ∧
      createNonMembershipProof (.standard lengthAndLast) .listed .listed .listed m [2] =
        .ok (.ok (.nonexist ⟨[2], left, right⟩)) ∧
      LeftExact lengthAndLast m [2] r left ∧ RightExact lengthAndLast m [2] r right := by
  obtain ⟨-, hproof⟩ := @createNonMembershipProof_exact lengthAndLast
    (AList.insert [3] (some [7]) (AList.insert [1] (some [5]) ∅)) [2]
    (.standard lengthAndLast) (by decide) .listed .listed .listed (by decide)
  obtain ⟨left, right, r, h⟩ := hproof (by decide)
  exact ⟨_, left, right, r, rfl, h⟩

end Proofs

end MelodiaStore
