import Mathlib.Data.Nat.Size
import Mathlib.Data.Prod.Lex
import MelodiaStore.Merkle
import MelodiaStore.Types
import MelodiaStore.Words

/-!
# The Merkle Root of a Map

`internal/tree`, `internal/kv` and `internal/maps`: the root of a map from names to byte slices.
Every value is hashed, the pairs of name and hash are sorted, each pair is written with the lengths
of its two parts in front of them, and what is written are the leaves of a hash tree.

`sha256` is any function from byte strings to strings of 32 bytes. No such function is injective;
where a result needs that two strings do not collide, it says which strings are meant: those that
are hashed on the way to the roots it speaks of.

## Main results

* `hashFromMap_eq_iff`: two maps have the same root if and only if they are the same.
-/

namespace MelodiaStore

open MerkleTree (nodes ofList root_inj)

/-- A sum of `crypto/sha256`. -/
abbrev Digest := { b : Bytes // b.length = 32 }

/-! ### Hash trees -/

namespace Tree

variable (sha256 : Bytes → Digest)

/-- `leafHashOpt`. -/
def leafHashOpt (leaf : Bytes) : Digest := sha256 (0 :: leaf)

/-- `innerHashOpt`. -/
def innerHashOpt (left right : Digest) : Digest := sha256 (1 :: (left.1 ++ right.1))

/-- `emptyHash`. -/
def emptyHash : Digest := sha256 []

/-- `getSplitPoint`. Its callers split what has two parts at least, and do not meet the panic for
lengths below one. -/
def getSplitPoint (length : ℕ) : ℕ :=
  let bitlen := length.size
  let k := 1 <<< (bitlen - 1)
  if k = length then k >>> 1 else k

/-- **`getSplitPoint`** is the largest power of two below the length. -/
theorem getSplitPoint_eq {n : ℕ} (h : 2 ≤ n) : getSplitPoint n = splitPoint n := by
  have hpos : 1 < n.size := Nat.lt_size.mpr h
  obtain ⟨e, he⟩ : ∃ e, n.size = e + 2 := ⟨n.size - 2, by omega⟩
  have hle : 2 ^ (e + 1) ≤ n := Nat.lt_size.mp (by omega)
  have hlt : n < 2 ^ (e + 2) := Nat.size_le.mp (by omega)
  rw [getSplitPoint, he, Nat.shiftLeft_eq, Nat.one_mul, show e + 2 - 1 = e + 1 from rfl]
  by_cases heq : 2 ^ (e + 1) = n
  · rw [if_pos heq, Nat.shiftRight_eq_div_pow, pow_succ, pow_one,
      Nat.mul_div_cancel _ Nat.two_pos]
    refine splitPoint_unique ?_ heq.ge
    rw [← heq, pow_succ]
    have := Nat.two_pow_pos e
    omega
  · rw [if_neg heq]
    exact splitPoint_unique (by omega) hlt.le

/-- `hashFromByteSlices`, and `HashFromByteSlices`, which gives it the hash. -/
def hashFromByteSlices (sha256 : Bytes → Digest) : List Bytes → Digest
  | [] => emptyHash sha256
  | [item] => leafHashOpt sha256 item
  | a :: b :: items =>
    let k := getSplitPoint (items.length + 2)
    let left := hashFromByteSlices sha256 ((a :: b :: items).take k)
    let right := hashFromByteSlices sha256 ((a :: b :: items).drop k)
    innerHashOpt sha256 left right
termination_by items => items.length
decreasing_by
  · have heq : getSplitPoint (items.length + 2) = splitPoint (items.length + 2) :=
      getSplitPoint_eq (by omega)
    have hlt : splitPoint (items.length + 2) < items.length + 2 := splitPoint_lt (by omega)
    rw [List.length_take, heq]
    exact Nat.lt_of_le_of_lt (Nat.min_le_left _ _) hlt
  · have heq : getSplitPoint (items.length + 2) = splitPoint (items.length + 2) :=
      getSplitPoint_eq (by omega)
    have hpos := splitPoint_pos (items.length + 2)
    rw [List.length_drop, heq, List.length_cons, List.length_cons]
    omega

/-- The bytes that are hashed at a node. -/
def nodeBytes : Node Bytes Digest → Bytes
  | .empty => []
  | .leaf item => 0 :: item
  | .inner left right => 1 :: (left.1 ++ right.1)

/-- The hashed bytes determine the node. -/
theorem nodeBytes_injective : Function.Injective nodeBytes := by
  intro n n' h
  cases n with
  | empty =>
    cases n' with
    | empty => rfl
    | leaf | inner => cases h
  | leaf item =>
    cases n' with
    | leaf item' => rw [(List.cons.inj h).2]
    | empty | inner => cases h
  | inner left right =>
    cases n' with
    | inner left' right' =>
      obtain ⟨hleft, hright⟩ :=
        List.append_inj (List.cons.inj h).2 (left.2.trans left'.2.symm)
      rw [Subtype.ext hleft, Subtype.ext hright]
    | empty | leaf => cases h

/-- **The hash of a list of items is the root of its tree.** -/
theorem hashFromByteSlices_eq (items : List Bytes) :
    hashFromByteSlices sha256 items = (ofList items).root (sha256 ∘ nodeBytes) := by
  induction items using MerkleTree.ofList_induction with
  | nil | singleton item => rw [hashFromByteSlices, ofList]; rfl
  | split items h ihl ihr =>
    rw [MerkleTree.ofList_of_two_le h, MerkleTree.root, ← ihl, ← ihr, ← getSplitPoint_eq h]
    obtain ⟨a, b, items, rfl⟩ := MerkleTree.exists_cons_cons h
    rw [hashFromByteSlices]
    rfl

end Tree

/-! ### Pairs -/

/-- `kv.Pair`, and `maps.KVPair`. -/
structure Pair where
  key : Bytes
  value : Bytes
  deriving DecidableEq

namespace Pair

/-- `Pairs.Less`, for the pairs at the two indices. -/
def less (a b : Pair) : Bool :=
  match compareIn true a.key b.key with
  | .lt => true
  | .eq => decide (a.value < b.value)
  | .gt => false

/-- `KVPair.Bytes`. The values that are written are hashes: the buffer is large enough for the
lengths. -/
def bytes (kv : Pair) : Bytes :=
  uvarint kv.key.length ++ kv.key ++ uvarint kv.value.length ++ kv.value

/-- The bytes determine the pair. -/
theorem bytes_injective : Function.Injective bytes := by
  intro a b h
  simp only [bytes, List.append_assoc] at h
  obtain ⟨hlength, h⟩ := uvarint_append_inj h
  obtain ⟨hkey, h⟩ := List.append_inj h hlength
  obtain ⟨-, hvalue⟩ := uvarint_append_inj h
  cases a
  cases b
  exact congrArg₂ mk hkey hvalue

/-- The pair `b` is not to come before `a`. -/
def Le (a b : Pair) : Prop := b.less a = false

instance : DecidableRel Le := fun a b => inferInstanceAs (Decidable (b.less a = false))

theorem less_iff (a b : Pair) :
    a.less b = true ↔ toLex (a.key, a.value) < toLex (b.key, b.value) := by
  rw [Prod.Lex.toLex_lt_toLex, less]
  cases h : compareIn true a.key b.key with
  | lt => simp [(before_true _ _).mp (compareIn_eq_lt.mp h)]
  | eq => simp [compareIn_eq_eq.mp h]
  | gt =>
    have hgt := (before_true _ _).mp (compareIn_eq_gt.mp h)
    simp [hgt.not_gt, hgt.ne']

/-- Pairs are ordered by their keys, and by their values where the keys are equal. -/
theorem le_iff (a b : Pair) : a.Le b ↔ toLex (a.key, a.value) ≤ toLex (b.key, b.value) := by
  rw [Le, ← Bool.not_eq_true, less_iff, not_lt]

instance : Std.Total Le := ⟨fun a b => by
  rw [le_iff, le_iff]
  exact le_total _ _⟩

instance : IsTrans Pair Le := ⟨fun a b c hab hbc => by
  rw [le_iff] at *
  exact hab.trans hbc⟩

instance : Std.Antisymm Le := ⟨fun a b hab hba => by
  rw [le_iff] at *
  obtain ⟨hkey, hvalue⟩ := Prod.mk.inj (toLex.injective (hab.antisymm hba))
  cases a
  cases b
  exact congrArg₂ mk hkey hvalue⟩

/-- `Pairs.Sort`. `sort.Sort` is not stable, but different pairs are never equal for `Less`. -/
def sort (kvs : List Pair) : List Pair := kvs.insertionSort Le

/-- Whatever sorts a list, the result is the same. -/
theorem eq_sort {kvs sorted : List Pair} (hperm : sorted.Perm kvs) (h : sorted.Pairwise Le) :
    sorted = sort kvs :=
  (hperm.trans (List.perm_insertionSort Le kvs).symm).eq_of_pairwise' h
    (List.pairwise_insertionSort Le kvs)

/-- The order of a map does not show. -/
theorem sort_eq_of_perm {kvs kvs' : List Pair} (h : kvs.Perm kvs') : sort kvs = sort kvs' :=
  eq_sort ((List.perm_insertionSort Le kvs).trans h) (List.pairwise_insertionSort Le kvs)

end Pair

/-! ### Maps -/

/-- `merkleMap`, and `simpleMap`, which is the same. -/
structure MerkleMap where
  kvs : List Pair
  sorted : Bool

namespace MerkleMap

variable (sha256 : Bytes → Digest)

/-- `newMerkleMap`. -/
def newMerkleMap : MerkleMap := ⟨[], false⟩

/-- `assertValidKey` of `internal/maps`. -/
def assertValidKey (key : Bytes) : Except Panic Unit :=
  if key.length = 0 then .error (.text "key is nil") else .ok ()

/-- `merkleMap.set`. -/
def set (sm : MerkleMap) (key : Bytes) (value : Slice) : Except Panic MerkleMap := do
  assertValidKey key
  let vhash := sha256 (value.getD [])
  return ⟨sm.kvs ++ [⟨key, vhash.1⟩], false⟩

/-- `merkleMap.sort`. -/
def sort (sm : MerkleMap) : MerkleMap :=
  if sm.sorted then sm else ⟨Pair.sort sm.kvs, true⟩

/-- `hashKVPairs`. -/
def hashKVPairs (kvs : List Pair) : Digest :=
  Tree.hashFromByteSlices sha256 (kvs.map Pair.bytes)

/-- `merkleMap.hash`. -/
def hash (sm : MerkleMap) : Digest := hashKVPairs sha256 sm.sort.kvs

/-- The loop over a map that fills a `merkleMap`. -/
def fill (order : Traversal Bytes Slice) (m : GoMap Bytes Slice) : Except Panic MerkleMap :=
  (order.visit m).foldlM (fun mm e => mm.set sha256 e.1 e.2) newMerkleMap

end MerkleMap

/-- `HashFromMap`. -/
def hashFromMap (sha256 : Bytes → Digest) (order : Traversal Bytes Slice)
    (m : GoMap Bytes Slice) : Except Panic Digest := do
  let mm ← MerkleMap.fill sha256 order m
  return mm.hash sha256

/-! ### The leaves of a map -/

section Leaves

variable (sha256 : Bytes → Digest)

/-- The pair of an entry. -/
def pairOf (e : (_ : Bytes) × Slice) : Pair := ⟨e.1, (sha256 (e.2.getD [])).1⟩

/-- The pairs of a map, sorted. -/
def sortedPairs (m : GoMap Bytes Slice) : List Pair := Pair.sort (m.entries.map (pairOf sha256))

/-- The items at the leaves of the tree of a map. -/
def leafItems (m : GoMap Bytes Slice) : List Bytes := (sortedPairs sha256 m).map Pair.bytes

/-- The root of the tree of a map. -/
def mapRoot (m : GoMap Bytes Slice) : Digest :=
  (ofList (leafItems sha256 m)).root (sha256 ∘ Tree.nodeBytes)

/-- A map without an empty key is filled in whatever order, and sorted. -/
theorem MerkleMap.fill_eq_ok (hkeys : ∀ k ∈ m, k ≠ []) (order : Traversal Bytes Slice) :
    ∃ mm, MerkleMap.fill sha256 order m = .ok mm ∧ mm.sort.kvs = sortedPairs sha256 m := by
  have hfold : ∀ (l : List ((_ : Bytes) × Slice)) (kvs : List Pair), (∀ e ∈ l, e.1 ≠ []) →
      l.foldlM (fun mm e => MerkleMap.set sha256 mm e.1 e.2) ⟨kvs, false⟩ =
        .ok ⟨kvs ++ l.map (pairOf sha256), false⟩ := by
    intro l
    induction l with
    | nil => intro kvs _; rw [List.map_nil, List.append_nil]; rfl
    | cons e l ih =>
      intro kvs hl
      have hset : MerkleMap.set sha256 ⟨kvs, false⟩ e.1 e.2 =
          .ok ⟨kvs ++ [pairOf sha256 e], false⟩ := by
        rw [MerkleMap.set, MerkleMap.assertValidKey,
          if_neg (mt List.length_eq_zero_iff.mp (hl e List.mem_cons_self))]
        rfl
      rw [List.foldlM_cons, hset]
      refine (ih _ fun e he => hl e (List.mem_cons_of_mem _ he)).trans ?_
      rw [List.map_cons, List.append_assoc]
      rfl
  refine ⟨_, hfold _ [] fun e he => ?_, ?_⟩
  · exact hkeys e.1 (AList.mem_keys.mpr (List.mem_map_of_mem (order.mem_visit.mp he)))
  · rw [MerkleMap.sort, if_neg Bool.false_ne_true, List.nil_append]
    exact Pair.sort_eq_of_perm ((order.perm m).map _)

/-- **The root of a map** does not depend on the order of the traversal. -/
theorem hashFromMap_eq_ok (hkeys : ∀ k ∈ m, k ≠ []) (order : Traversal Bytes Slice) :
    hashFromMap sha256 order m = .ok (mapRoot sha256 m) := by
  obtain ⟨mm, hfill, hkvs⟩ := MerkleMap.fill_eq_ok sha256 hkeys order
  rw [hashFromMap, hfill]
  change Except.ok (mm.hash sha256) = _
  rw [MerkleMap.hash, hkvs, MerkleMap.hashKVPairs, Tree.hashFromByteSlices_eq]
  rfl

/-! ### The root determines the map -/

/-- The two maps have the same keys, with the same bytes. -/
def SameMap (m m' : GoMap Bytes Slice) : Prop :=
  ∀ k, (m.lookup k).map (·.getD []) = (m'.lookup k).map (·.getD [])

/-- The byte strings that are hashed on the way to the root of a map. -/
def hashedStrings (m : GoMap Bytes Slice) : Set Bytes :=
  {b | ∃ k v, m.lookup k = some v ∧ b = v.getD []} ∪
    {b | ∃ n ∈ (ofList (leafItems sha256 m)).nodes (sha256 ∘ Tree.nodeBytes),
      b = Tree.nodeBytes n}

variable {sha256} {m m' : GoMap Bytes Slice}

/-- The pairs of a map. -/
theorem mem_sortedPairs {p : Pair} :
    p ∈ sortedPairs sha256 m ↔
      ∃ v, m.lookup p.key = some v ∧ p.value = (sha256 (v.getD [])).1 := by
  rw [sortedPairs, Pair.sort, List.mem_insertionSort, List.mem_map]
  constructor
  · rintro ⟨e, he, rfl⟩
    exact ⟨e.2, mem_entries_iff.mp he, rfl⟩
  · rintro ⟨v, hv, hvalue⟩
    exact ⟨⟨p.key, v⟩, mem_entries_iff.mpr hv, by rw [pairOf, ← hvalue]⟩

theorem nodup_pairs (m : GoMap Bytes Slice) : (m.entries.map (pairOf sha256)).Nodup := by
  refine List.Nodup.of_map Pair.key ?_
  rw [List.map_map]
  exact m.keys_nodup

/-- The same maps have the same pairs. -/
theorem sortedPairs_eq_of_same (h : SameMap m m') :
    sortedPairs sha256 m = sortedPairs sha256 m' := by
  have hsub : ∀ {m m' : GoMap Bytes Slice}, SameMap m m' → ∀ p ∈ sortedPairs sha256 m,
      p ∈ sortedPairs sha256 m' := by
    intro m m' h p hp
    obtain ⟨v, hv, hvalue⟩ := mem_sortedPairs.mp hp
    have hk := h p.key
    rw [hv] at hk
    obtain ⟨v', hv', hbytes⟩ := Option.map_eq_some_iff.mp hk.symm
    exact mem_sortedPairs.mpr ⟨v', hv', by rw [hvalue, hbytes]⟩
  have hmem : ∀ p, p ∈ m.entries.map (pairOf sha256) ↔ p ∈ m'.entries.map (pairOf sha256) := by
    intro p
    have hsame : p ∈ sortedPairs sha256 m ↔ p ∈ sortedPairs sha256 m' :=
      ⟨hsub h p, hsub (fun k => (h k).symm) p⟩
    exact (List.mem_insertionSort Pair.Le).symm.trans (hsame.trans (List.mem_insertionSort Pair.Le))
  exact Pair.sort_eq_of_perm
    ((List.perm_ext_iff_of_nodup (nodup_pairs m) (nodup_pairs m')).mpr hmem)

/-- The same maps have the same root. -/
theorem mapRoot_congr (h : SameMap m m') : mapRoot sha256 m = mapRoot sha256 m' := by
  rw [mapRoot, mapRoot, leafItems, leafItems, sortedPairs_eq_of_same h]

section

variable (hinj : Set.InjOn sha256 (hashedStrings sha256 m ∪ hashedStrings sha256 m'))
include hinj

/-- What one map has the other has too, if their pairs are equal. -/
theorem lookup_of_sortedPairs_eq (h : sortedPairs sha256 m = sortedPairs sha256 m') {k : Bytes}
    {v : Slice} (hv : m.lookup k = some v) :
    ∃ v', m'.lookup k = some v' ∧ v.getD [] = v'.getD [] := by
  have hp : (⟨k, (sha256 (v.getD [])).1⟩ : Pair) ∈ sortedPairs sha256 m' :=
    h ▸ mem_sortedPairs.mpr ⟨v, hv, rfl⟩
  obtain ⟨v', hv', hvalue⟩ := mem_sortedPairs.mp hp
  exact ⟨v', hv', hinj (.inl (.inl ⟨k, v, hv, rfl⟩)) (.inr (.inl ⟨k, v', hv', rfl⟩))
    (Subtype.ext hvalue)⟩

theorem same_of_sortedPairs_eq (h : sortedPairs sha256 m = sortedPairs sha256 m') :
    SameMap m m' := by
  intro k
  cases hv : m.lookup k with
  | some v =>
    obtain ⟨v', hv', hbytes⟩ := lookup_of_sortedPairs_eq hinj h hv
    rw [hv', Option.map_some, Option.map_some, hbytes]
  | none =>
    cases hv' : m'.lookup k with
    | none => rfl
    | some v' =>
      rw [Set.union_comm] at hinj
      obtain ⟨v, hv₂, -⟩ := lookup_of_sortedPairs_eq hinj h.symm hv'
      rw [hv] at hv₂
      cases hv₂

/-- Roots that are equal have equal pairs under them. -/
theorem sortedPairs_eq_of_root_eq (h : mapRoot sha256 m = mapRoot sha256 m') :
    sortedPairs sha256 m = sortedPairs sha256 m' := by
  refine List.map_injective_iff.mpr Pair.bytes_injective (MerkleTree.ofList_injective ?_)
  refine root_inj (hinj.comp Tree.nodeBytes_injective.injOn ?_) h
  rintro n (hn | hn)
  · exact .inl (.inr ⟨n, hn, rfl⟩)
  · exact .inr (.inr ⟨n, hn, rfl⟩)

/-- Two roots are equal if and only if the maps are the same. -/
theorem mapRoot_eq_iff : mapRoot sha256 m = mapRoot sha256 m' ↔ SameMap m m' :=
  ⟨fun h => same_of_sortedPairs_eq hinj (sortedPairs_eq_of_root_eq hinj h), mapRoot_congr⟩

end

/-- **The root binds the map.** Two maps without empty keys have the same root if and only if they
are the same, in whatever order they are traversed, if no two of the strings collide that are
hashed on the way. -/
theorem hashFromMap_eq_iff (sha256 : Bytes → Digest) (m m' : GoMap Bytes Slice)
    (hkeys : ∀ k ∈ m, k ≠ []) (hkeys' : ∀ k ∈ m', k ≠ [])
    (hinj : Set.InjOn sha256 (hashedStrings sha256 m ∪ hashedStrings sha256 m'))
    (order order' : Traversal Bytes Slice) :
    ∃ root root', hashFromMap sha256 order m = .ok root ∧
      hashFromMap sha256 order' m' = .ok root' ∧ (root = root' ↔ SameMap m m') :=
  ⟨_, _, hashFromMap_eq_ok sha256 hkeys order, hashFromMap_eq_ok sha256 hkeys' order',
    mapRoot_eq_iff hinj⟩

/-- The strings that are hashed for a map with one entry. -/
theorem hashedStrings_singleton (sha256 : Bytes → Digest) (k : Bytes) (v : Slice) :
    hashedStrings sha256 (AList.singleton k v) =
      {v.getD [], 0 :: (pairOf sha256 ⟨k, v⟩).bytes} := by
  have htree : ofList (leafItems sha256 (AList.singleton k v)) =
      .leaf (pairOf sha256 ⟨k, v⟩).bytes := by
    rw [show leafItems sha256 (AList.singleton k v) = [(pairOf sha256 ⟨k, v⟩).bytes] from rfl,
      ofList]
  ext b
  simp only [hashedStrings, htree, nodes, lookup_singleton_iff, Set.mem_union,
    Set.mem_ofPred_eq, List.mem_singleton, exists_eq_left, Tree.nodeBytes, Set.mem_insert_iff,
    Set.mem_singleton_iff]
  constructor
  · rintro (⟨k', v', ⟨-, rfl⟩, rfl⟩ | rfl)
    · exact .inl rfl
    · exact .inr rfl
  · rintro (rfl | rfl)
    · exact .inl ⟨k, v, ⟨rfl, rfl⟩, rfl⟩
    · exact .inr rfl

/-- The string that is hashed for the empty map. -/
theorem hashedStrings_empty (sha256 : Bytes → Digest) : hashedStrings sha256 ∅ = {[]} := by
  have htree : ofList (leafItems sha256 ∅) = .empty := by
    rw [show leafItems sha256 ∅ = [] from rfl, ofList]
  ext b
  simp [hashedStrings, htree, nodes, Tree.nodeBytes]

/-- The length of a string and its last byte, in the place of a hash. -/
def lengthAndLast (b : Bytes) : Digest :=
  ⟨UInt8.ofNat b.length :: (List.replicate 30 0 ++ [b.getLastD 0]), rfl⟩

/-- The leaf of a key of one byte. -/
theorem leaf_lengthAndLast (c : UInt8) (v : Slice) :
    0 :: (pairOf lengthAndLast ⟨[c], v⟩).bytes =
      [0, 1, c, 32] ++ (lengthAndLast (v.getD [])).1 := by
  change 0 :: (uvarint 1 ++ [c] ++ uvarint 32 ++ (lengthAndLast (v.getD [])).1) = _
  rw [uvarint_of_lt (by decide), uvarint_of_lt (by decide)]
  rfl

/-- Two keys, the value of the second one given. -/
def twoEntries (c : UInt8) : GoMap Bytes Slice :=
  (AList.singleton [0x62] (some [c])).insert [0x61] (some [1])

/-- What is hashed for the two keys: the values, the leaves, and the node over them. -/
def twoEntriesStrings (c : UInt8) : List Bytes :=
  let left := [0, 1, 0x61, 32] ++ (lengthAndLast [1]).1
  let right := [0, 1, 0x62, 32] ++ (lengthAndLast [c]).1
  [[1], [c], left, right, 1 :: ((lengthAndLast left).1 ++ (lengthAndLast right).1)]

/-- Nothing else is hashed for them. -/
theorem mem_of_mem_hashedStrings_twoEntries {c : UInt8} {b : Bytes}
    (h : b ∈ hashedStrings lengthAndLast (twoEntries c)) : b ∈ twoEntriesStrings c := by
  have htree : ofList (leafItems lengthAndLast (twoEntries c)) =
      .inner (.leaf (pairOf lengthAndLast ⟨[0x61], some [1]⟩).bytes)
        (.leaf (pairOf lengthAndLast ⟨[0x62], some [c]⟩).bytes) := by
    rw [show leafItems lengthAndLast (twoEntries c) = [(pairOf lengthAndLast ⟨[0x61], _⟩).bytes,
      (pairOf lengthAndLast ⟨[0x62], _⟩).bytes] from rfl, ofList]
    exact congrArg₂ MerkleTree.inner (MerkleTree.ofList.eq_2 _) (MerkleTree.ofList.eq_2 _)
  obtain ⟨k, v, hv, rfl⟩ | ⟨n, hn, rfl⟩ := h
  · rw [twoEntries, lookup_insert_ite] at hv
    split at hv
    · cases hv
      simp [twoEntriesStrings]
    · obtain ⟨-, rfl⟩ := lookup_singleton_iff.mp hv
      simp [twoEntriesStrings]
  · rw [htree] at hn
    have hleft := leaf_lengthAndLast 0x61 (some [1])
    have hright := leaf_lengthAndLast 0x62 (some [c])
    simp only [nodes, List.mem_cons, List.mem_append, List.not_mem_nil, or_false] at hn
    obtain rfl | rfl | rfl := hn <;>
      simp [twoEntriesStrings, MerkleTree.root, Tree.nodeBytes, hleft, hright]

/-- Two maps of two keys, one met backwards, that differ in a value. -/
theorem hashFromMap_eq_iff_of_twoKeys : ∃ root root',
    hashFromMap lengthAndLast .listed (twoEntries 2) = .ok root ∧
      hashFromMap lengthAndLast Traversal.listed.backwards (twoEntries 3) = .ok root' ∧
      root ≠ root' := by
  have hkeys (c : UInt8) : ∀ k ∈ twoEntries c, k ≠ [] := by
    rintro _ hk rfl
    exact absurd hk (by decide : ([] : Bytes) ∉ [[0x61], [0x62]])
  have hinj : Set.InjOn lengthAndLast (hashedStrings lengthAndLast (twoEntries 2) ∪
      hashedStrings lengthAndLast (twoEntries 3)) := by
    have hlist : ∀ x ∈ twoEntriesStrings 2 ++ twoEntriesStrings 3,
        ∀ y ∈ twoEntriesStrings 2 ++ twoEntriesStrings 3,
          lengthAndLast x = lengthAndLast y → x = y := by decide
    have hmem {b : Bytes} (hb : b ∈ hashedStrings lengthAndLast (twoEntries 2) ∪
        hashedStrings lengthAndLast (twoEntries 3)) :
        b ∈ twoEntriesStrings 2 ++ twoEntriesStrings 3 :=
      List.mem_append.mpr (hb.imp mem_of_mem_hashedStrings_twoEntries
        mem_of_mem_hashedStrings_twoEntries)
    exact fun x hx y hy => hlist x (hmem hx) y (hmem hy)
  obtain ⟨root, root', hroot, hroot', hiff⟩ := hashFromMap_eq_iff lengthAndLast _ _
    (hkeys 2) (hkeys 3) hinj .listed Traversal.listed.backwards
  refine ⟨root, root', hroot, hroot', fun heq => ?_⟩
  cases hiff.mp heq [0x62]

end Leaves

end MelodiaStore
