import MelodiaStore.CacheRange
import MelodiaStore.PrefixStore

/-!
# Ranges of Prefix Stores

`GetAllKeyStrsInRange` of `prefix/store.go`, and of a cache store over a prefix store.

The listing translates the ends of the range as the iterators do, but returns the keys of the
parent as they are, with the prefix. A cache store then takes them for keys of its own.

## Main results

* `PrefixStore.listing_over_iff`: the same for a cache store over the prefix store.
-/

namespace MelodiaStore

namespace PrefixStore

variable {π : Type}

/-- `prefix.Store.GetAllKeyStrsInRange`. -/
def getAllKeyStrsInRange [RangeListing π] (s : PrefixStore π) (start stop : Slice) :
    Except Panic (List Bytes) :=
  RangeListing.getAllKeyStrsInRange s.parent (some (cloneAppend s.pfx start)) (s.newend stop)

instance [RangeListing π] : RangeListing (PrefixStore π) where
  getAllKeyStrsInRange := getAllKeyStrsInRange

/-- A set of keys that stays the same when a prefix is put in front of its members is empty: no
member of least length can start with the prefix. -/
theorem not_mem_of_append_invariant {pfx : Bytes} (hpfx : pfx ≠ []) {S : Set Bytes}
    (h : ∀ k ∈ S, ∃ k' ∈ S, k = pfx ++ k') (k : Bytes) : k ∉ S := by
  induction hlen : k.length using Nat.strong_induction_on generalizing k with
  | h n ih =>
    intro hk
    obtain ⟨k', hk', rfl⟩ := h k hk
    have hlt : k'.length < n := by
      rw [← hlen, List.length_append]
      exact Nat.lt_add_of_pos_left (List.length_pos_of_ne_nil hpfx)
    exact ih k'.length hlt k' rfl hk'

variable [SortedMapStore π] [RangeListing π] [LawfulListing π] {s : PrefixStore π}

/-- **What a prefix store lists**: the keys of the range that it shows, each once, with the
prefix put in front. -/
theorem exists_listing (hpfx : s.pfx ≠ []) (start stop : Slice) :
    ∃ keys, s.getAllKeyStrsInRange start stop = .ok keys ∧ keys.Nodup ∧
      ∀ x, x ∈ keys ↔ ∃ k, x = s.pfx ++ k ∧ isKeyInDomain k start stop = true ∧
        (s.view k).isSome = true := by
  obtain ⟨iter, hiter⟩ := SortedMapStore.exists_iterator s.parent
    (some (cloneAppend s.pfx start)) (s.newend stop) true (by simp [cloneAppend, hpfx])
    (newend_ne_nil hpfx stop)
  obtain ⟨keys, hkeys, hnodup, hmem⟩ := LawfulListing.exists_listing s.parent _ _ iter hiter
  refine ⟨keys, hkeys, hnodup, fun x => ?_⟩
  rw [hmem, mem_map_fst_iff (SortedMapStore.mem_iterator s.parent _ _ _ _ hiter),
    s.isKeyInDomain_newend]
  constructor
  · rintro ⟨⟨k, rfl, hk⟩, hsome⟩
    exact ⟨k, rfl, hk, hsome⟩
  · rintro ⟨k, rfl, hk, hsome⟩
    exact ⟨⟨k, rfl, hk⟩, hsome⟩

/-- **The listing of a range agrees with the iterator.** -/
def ListsRange (s : PrefixStore π) (start stop : Slice) : Prop :=
  ∃ keys l, s.getAllKeyStrsInRange start stop = .ok keys ∧ s.traverse start stop true = .ok l ∧
    keys.Perm (l.map Prod.fst)

/-- No key with the prefix is in the range. -/
def EmptyRange (s : PrefixStore π) (start stop : Slice) : Prop :=
  ∀ k, isKeyInDomain k start stop = true → s.view k = none

/-- **The listing agrees with the iterator only over an empty range.** -/
theorem listing_eq_iff (hpfx : s.pfx ≠ []) (start stop : Slice) :
    s.ListsRange start stop ↔ s.EmptyRange start stop := by
  obtain ⟨keys, hkeys, -, hmem⟩ := exists_listing hpfx start stop
  obtain ⟨l, hl, -, hshown⟩ := exists_traverse hpfx start stop true
  have hshown' : ∀ k, k ∈ l.map Prod.fst ↔
      isKeyInDomain k start stop = true ∧ (s.view k).isSome = true := mem_map_fst_iff hshown
  constructor
  · rintro ⟨keys', l', hkeys', hl', hperm⟩ k hdom
    obtain rfl := Except.ok.inj (hkeys.symm.trans hkeys')
    obtain rfl := Except.ok.inj (hl.symm.trans hl')
    have hnone : k ∉ {k | k ∈ l.map Prod.fst} := by
      refine not_mem_of_append_invariant hpfx (fun x hx => ?_) k
      obtain ⟨k', rfl, hk'⟩ := (hmem x).mp (hperm.mem_iff.mpr hx)
      exact ⟨k', (hshown' k').mpr hk', rfl⟩
    exact Option.not_isSome_iff_eq_none.mp fun hsome => hnone ((hshown' k).mpr ⟨hdom, hsome⟩)
  · intro hempty
    have hnone : ∀ k, isKeyInDomain k start stop = true → (s.view k).isSome ≠ true := by
      intro k hdom
      rw [hempty k hdom]
      exact Bool.false_ne_true
    have hkeysNil : keys = [] := List.eq_nil_iff_forall_not_mem.mpr fun x hx => by
      obtain ⟨k, -, hdom, hsome⟩ := (hmem x).mp hx
      exact hnone k hdom hsome
    have hlNil : l.map Prod.fst = [] := List.eq_nil_iff_forall_not_mem.mpr fun k hk =>
      hnone k ((hshown' k).mp hk).1 ((hshown' k).mp hk).2
    exact ⟨keys, l, hkeys, hl, by rw [hkeysNil, hlNil]⟩

/-! ### A cache store over a prefix store -/

/-- A key is there: by its cached value, or else in the prefix store. -/
def Visible (store : CacheKVStore (PrefixStore π)) (k : Bytes) : Prop :=
  (∃ cv, store.maps.cache.lookup k = some cv ∧ cv.value.isSome = true) ∨
    k ∉ store.maps.cache ∧ (store.parent.view k).isSome = true

/-- **A cache store over a prefix store lists its range**: the keys that are there, each once. -/
def ListsOver (store : CacheKVStore (PrefixStore π)) (start stop : Slice) : Prop :=
  ∀ (order : Traversal Bytes CValue) (collect : Traversal Bytes Unit),
    ∃ keys, store.getAllKeyStrsInRange order collect start stop = .ok keys ∧ keys.Nodup ∧
      ∀ k, k ∈ keys ↔ isKeyInDomain k start stop = true ∧ Visible store k

/-- Over an empty range of the prefix store, only the cache has keys, and they are all listed
if the range has an end. -/
theorem listsOver_iff_of_empty {store : CacheKVStore (PrefixStore π)}
    (hpfx : store.parent.pfx ≠ []) {start stop : Slice}
    (hempty : store.parent.EmptyRange start stop) :
    ListsOver store start stop ↔ stop ≠ none ∨
      ∀ k cv, store.maps.cache.lookup k = some cv → start.getD [] ≤ k → cv.value = none := by
  obtain ⟨parentKeys, hparent, -, hmem⟩ := exists_listing hpfx start stop
  have hnil : parentKeys = [] := List.eq_nil_iff_forall_not_mem.mpr fun x hx => by
    obtain ⟨k, -, hdom, hsome⟩ := (hmem x).mp hx
    rw [hempty k hdom] at hsome
    cases hsome
  subst hnil
  have hlisted := store.exists_listing hparent
  simp only [List.not_mem_nil, false_and, or_false] at hlisted
  have hvisible : ∀ k, isKeyInDomain k start stop = true → (Visible store k ↔
      ∃ cv, store.maps.cache.lookup k = some cv ∧ cv.value.isSome = true) := by
    intro k hdom
    rw [Visible, hempty k hdom]
    simp
  cases stop with
  | some stop =>
    refine iff_of_true (fun order collect => ?_) (.inl (Option.some_ne_none stop))
    obtain ⟨keys, hkeys, hnodup, hk⟩ := hlisted order collect
    refine ⟨keys, hkeys, hnodup, fun k => ?_⟩
    rw [hk, CacheKVStore.counted_iff]
    exact and_congr_right fun hdom => (hvisible k hdom).symm
  | none =>
    rw [or_iff_right (not_not_intro rfl)]
    constructor
    · intro h k cv hcv hle
      obtain ⟨keys, hkeys, -, hexact⟩ := h .listed .listed
      obtain ⟨keys', hkeys', -, hk⟩ := hlisted .listed .listed
      obtain rfl := Except.ok.inj (hkeys.symm.trans hkeys')
      refine Option.not_isSome_iff_eq_none.mp fun hsome => ?_
      have hmem := (hexact k).mpr
        ⟨CacheKVStore.isKeyInDomain_none.mpr hle, .inl ⟨cv, hcv, hsome⟩⟩
      exact CacheKVStore.not_counted_none ((hk k).mp hmem).1
    · intro h order collect
      obtain ⟨keys, hkeys, hnodup, hk⟩ := hlisted order collect
      refine ⟨keys, hkeys, hnodup, fun k => iff_of_false (fun hmem => ?_) ?_⟩
      · exact CacheKVStore.not_counted_none ((hk k).mp hmem).1
      rintro ⟨hk, hvis⟩
      obtain ⟨cv, hcv, hsome⟩ := (hvisible k hk).mp hvis
      rw [h k cv hcv (CacheKVStore.isKeyInDomain_none.mp hk)] at hsome
      cases hsome

/-- **When the listings are right.** The listing of a prefix store agrees with its iterator, and
a cache store over it lists every key of the range once, if and only if no key with the prefix
is in the range, and the range has an end or the cache no live key in it. -/
theorem listing_over_iff (store : CacheKVStore (PrefixStore π)) (hpfx : store.parent.pfx ≠ [])
    (start stop : Slice) :
    store.parent.ListsRange start stop ∧ ListsOver store start stop ↔
      store.parent.EmptyRange start stop ∧ (stop ≠ none ∨
        ∀ k cv, store.maps.cache.lookup k = some cv → start.getD [] ≤ k → cv.value = none) := by
  rw [listing_eq_iff hpfx]
  exact and_congr_right fun hempty => listsOver_iff_of_empty hpfx hempty

/-- A database has a key with the prefix, `[7, 5]`, and one without it, and the cache has the key
`[1]`: the listings that end before `[5]` are right, and those that come to it are not. -/
theorem listing_over_of_cached : ∃ (db : DbAdapter) (store : CacheKVStore (PrefixStore DbAdapter)),
    (do (← DbAdapter.empty.set [7, 5] (some [2])).set [8] (some [3])) = .ok db ∧
      (CacheKVStore.newStore (newStore db [7])).set [1] (some [9]) = .ok store ∧
      store.getAllKeyStrsInRange .listed .listed none (some [3]) = .ok [[1]] ∧
      (store.parent.ListsRange none (some [3]) ∧ ListsOver store none (some [3])) ∧
      ¬ (store.parent.ListsRange none (some [6]) ∧ ListsOver store none (some [6])) := by
  refine ⟨_, _, rfl, rfl, rfl, ?_, fun h => ?_⟩
  · refine (listing_over_iff _ (List.cons_ne_nil 7 []) none (some [3])).mpr
      ⟨fun k hk => ?_, .inl ?_⟩
    · have hother : [7] ++ k ≠ [8] := by simp
      have hfive : [7] ++ k ≠ [7, 5] := by
        rintro ⟨⟩
        exact absurd hk (by decide)
      refine ((DbAdapter.lookup_insert _ [8] (by decide) [3] _).trans (if_neg hother)).trans ?_
      exact (DbAdapter.lookup_insert .empty [7, 5] (by decide) [2] _).trans (if_neg hfive)
    · exact Option.some_ne_none _
  · have hempty := ((listing_over_iff _ (List.cons_ne_nil 7 []) none (some [6])).mp h).1
    cases hempty [5] rfl

/-- **The keys come back with the prefix**: the iterator shows the key `[1]`, both listings
have `[7, 1]`. -/
theorem listing_with_prefixed_keys : ∃ db : DbAdapter,
    DbAdapter.empty.set [7, 1] (some [5]) = .ok db ∧
      (newStore db [7]).traverse none none true = .ok [([1], [5])] ∧
      (newStore db [7]).getAllKeyStrsInRange none none = .ok [[7, 1]] ∧
      (CacheKVStore.newStore (newStore db [7])).getAllKeyStrsInRange .listed .listed none none =
        .ok [[7, 1]] :=
  ⟨_, rfl, rfl, rfl, rfl⟩

end PrefixStore

end MelodiaStore
