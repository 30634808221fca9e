import MelodiaStore.CacheMergeIterator
import MelodiaStore.SortedCursor

/-!
# The Iterator of the Sorted Cache

`memIterator` of `cachekv/internal/memiterator.go`, over a cursor of the B-tree. The tree is a
third-party package: its cursor is a parameter, and what its documentation says of the moves is
the assumption `SortedCursor.Documented`. The iterator positions the cursor once. After that it
moves by one item at a time and checks one bound only, the one it moves towards. Downwards the
cursor is sought at the end of the range, which is exclusive, and moved back by one item, or
moved to the last item when no key is at or above the end.

## Main results

* `openIterator_exact`: it yields the items of the range, each once and in order.
-/

namespace MelodiaStore

variable {ι : Type}

/-- `memIterator`; `iter` is the state of the tree's cursor. -/
structure MemIterator (ι : Type) where
  iter : ι
  start : Slice
  stop : Slice
  ascending : Bool
  valid : Bool

namespace MemIterator

/-! ### The methods -/

section Methods

variable (c : SortedCursor ι Bytes Slice)

/-- `Key`, which does not ask whether the iterator is valid. -/
def key (it : MemIterator ι) : Bytes := (c.item it.iter).1

/-- `Value`. -/
def value (it : MemIterator ι) : Slice := (c.item it.iter).2

/-- `keyInRange`. -/
def keyInRange (it : MemIterator ι) (key : Bytes) : Bool :=
  BTree.keyInRange it.start it.stop it.ascending key

/-- `if mi.valid { mi.valid = mi.keyInRange(mi.Key()) }`. -/
def recheck (it : MemIterator ι) : MemIterator ι :=
  if it.valid then { it with valid := it.keyInRange (it.key c) } else it

/-- `assertValid`, which panics with what `Error` returns. -/
def assertValid (it : MemIterator ι) : Except Panic Unit :=
  if it.valid then .ok () else .error (.error "invalid memIterator")

/-- `Next`. -/
def next (it : MemIterator ι) : Except Panic (MemIterator ι) := do
  it.assertValid
  let (valid, iter) := if it.ascending then c.next it.iter else c.prev it.iter
  pure (recheck c { it with iter := iter, valid := valid })

/-- A full traversal, `for ; it.Valid(); it.Next()`, of at most `fuel` rounds, with what `Key`
and `Value` return on the way. -/
def collect : ℕ → MemIterator ι → Except Panic (List (Bytes × Slice))
  | 0, _ => .error .outOfFuel
  | fuel + 1, it =>
    if it.valid then do
      let it' ← it.next c
      let rest ← collect fuel it'
      pure ((it.key c, it.value c) :: rest)
    else .ok []

end Methods

end MemIterator

section Positioning

variable (c : SortedCursor ι Bytes Slice) (iter : ι) (start stop : Slice) (ascending : Bool)

/-- How `newMemIterator` positions the cursor, and whether it finds an item. -/
def position : Bool × ι :=
  if ascending then
    match start with
    | some start => c.seek start iter
    | none => c.first iter
  else
    match stop with
    | some stop =>
      let (valid, iter) := c.seek stop iter
      -- the end is exclusive
      if valid then c.prev iter else c.last iter
    | none => c.last iter

/-- `newMemIterator`, with the cursor `iter` that `items.tree.Iter()` returns. -/
def newMemIterator : MemIterator ι :=
  let (valid, iter) := position c iter start stop ascending
  MemIterator.recheck c ⟨iter, start, stop, ascending, valid⟩

/-- `BTree.Iterator` and `BTree.ReverseIterator`. -/
def openIterator : Except Panic (MemIterator ι) :=
  if start = some [] ∨ stop = some [] then .error (.error "key cannot be empty")
  else .ok (newMemIterator c iter start stop ascending)

end Positioning

/-! ### The keys before an iterator -/

variable {c : SortedCursor ι Bytes Slice} {tree : BTree} {On : ι → Bytes → Prop} {k : Bytes}

/-- An item of the tree, as a cursor on it returns it. -/
theorem item_eq (h : c.Documented tree On) {i : ι} (hon : On i k) :
    c.item i = (k, tree.value k) := by
  obtain ⟨v, hv, hitem⟩ := h.item hon
  rw [hitem, BTree.value, mem_entries_iff.mp hv]
  rfl

namespace MemIterator

variable {it : MemIterator ι} {keys : List Bytes}

/-- **What an iterator has before it**: the keys of the tree from the one under its cursor on.
It is valid when that one is in the range. -/
structure Scans (tree : BTree) (On : ι → Bytes → Prop) (it : MemIterator ι) (keys : List Bytes) :
    Prop where
  suffix : keys <:+ tree.sortedKeys it.ascending
  on : ∀ k ∈ keys.head?, On it.iter k
  valid_eq : it.valid = keys.head?.any it.keyInRange

theorem keyInRange_recheck (it : MemIterator ι) : (it.recheck c).keyInRange = it.keyInRange := by
  unfold recheck
  split <;> rfl

/-- The check of the current key makes an iterator of a positioned cursor. -/
theorem scans_recheck (h : c.Documented tree On) (hsuffix : keys <:+ tree.sortedKeys it.ascending)
    (hhead : AtHead On (it.valid, it.iter) keys) : Scans tree On (it.recheck c) keys := by
  cases keys with
  | nil =>
    have hinvalid : it.valid = false := hhead
    rw [recheck, hinvalid]
    exact ⟨hsuffix, by simp, hinvalid⟩
  | cons k keys =>
    obtain ⟨hvalid, hon⟩ : it.valid = true ∧ On it.iter k := hhead
    rw [recheck, hvalid, if_pos rfl, key, item_eq h hon]
    exact ⟨hsuffix, fun k' hk' => Option.mem_some.mp hk' ▸ hon, rfl⟩

/-- The keys are met in order. -/
theorem Scans.pairwise (hs : Scans tree On it keys) : keys.Pairwise (Before it.ascending) :=
  (tree.pairwise_sortedKeys it.ascending).sublist hs.suffix.sublist

/-- In a sorted list, what comes after its first key is what that key comes before. -/
theorem Scans.mem_tail_iff (hs : Scans tree On it (k :: keys)) (k' : Bytes) :
    k' ∈ keys ↔ k' ∈ tree ∧ Before it.ascending k k' := by
  obtain ⟨front, hfront⟩ := hs.suffix
  have hsorted := tree.pairwise_sortedKeys it.ascending
  rw [← hfront, List.pairwise_append] at hsorted
  obtain ⟨-, hkeys, hbetween⟩ := hsorted
  have hmem : k' ∈ tree.sortedKeys it.ascending ↔ k' ∈ tree := BTree.mem_sortedKeys
  rw [← hmem, ← hfront, List.mem_append, List.mem_cons]
  constructor
  · exact fun hk' => ⟨.inr (.inr hk'), (List.pairwise_cons.mp hkeys).1 k' hk'⟩
  · rintro ⟨hk' | rfl | hk', hbefore⟩
    · exact absurd hbefore (hbetween k' hk' k List.mem_cons_self).asymm
    · exact absurd hbefore (Before.irrefl it.ascending k')
    · exact hk'

/-- **`Next`** drops the key, and the bounds stay. -/
theorem Scans.next (h : c.Documented tree On) (hs : Scans tree On it (k :: keys))
    (hvalid : it.valid = true) :
    ∃ it', it.next c = .ok it' ∧ Scans tree On it' keys ∧ it'.keyInRange = it.keyInRange := by
  have hon : On it.iter k := hs.on k rfl
  have hlands := h.step hon it.ascending
  cases hmove : (if it.ascending then c.next it.iter else c.prev it.iter) with
  | mk valid iter =>
    rw [hmove] at hlands
    have hhead : AtHead On (valid, iter) keys :=
      hlands.atHead (List.pairwise_cons.mp hs.pairwise).2 hs.mem_tail_iff
    have hsuffix : keys <:+ tree.sortedKeys it.ascending :=
      (List.suffix_cons k keys).trans hs.suffix
    refine ⟨recheck c { it with iter := iter, valid := valid }, ?_,
      scans_recheck h hsuffix hhead, keyInRange_recheck _⟩
    rw [MemIterator.next, assertValid, hvalid, hmove]
    rfl

/-- **A full traversal** yields the items up to the first key out of range. -/
theorem Scans.collect (h : c.Documented tree On) (hs : Scans tree On it keys) {fuel : ℕ}
    (hfuel : (keys.takeWhile it.keyInRange).length < fuel) :
    it.collect c fuel =
      .ok ((keys.takeWhile it.keyInRange).map fun k => (k, tree.value k)) := by
  induction fuel generalizing it keys with
  | zero => omega
  | succ fuel ih =>
    rw [MemIterator.collect, hs.valid_eq]
    cases keys with
    | nil => rfl
    | cons k keys =>
      rw [List.head?_cons, Option.any_some]
      by_cases hrange : it.keyInRange k = true
      · obtain ⟨it', hnext, hs', hbounds⟩ := hs.next h (hs.valid_eq.trans hrange)
        rw [List.takeWhile_cons_of_pos hrange, List.length_cons] at hfuel
        rw [List.takeWhile_cons_of_pos hrange, if_pos hrange, hnext]
        have hrest := ih hs' (by rw [hbounds]; omega)
        rw [hbounds] at hrest
        change (it'.collect c fuel >>= fun rest => pure ((it.key c, it.value c) :: rest)) = _
        rw [hrest, key, value, item_eq h (hs.on k rfl)]
        rfl
      · rw [List.takeWhile_cons_of_neg hrange, if_neg hrange]
        rfl

end MemIterator

/-! ### Positioning -/

section

variable (h : c.Documented tree On) (iter : ι) (start stop : Slice) (ascending : Bool)
include h

/-- **The cursor is positioned** on the first key of the range, if one is there. -/
theorem atHead_position :
    AtHead On (position c iter start stop ascending)
      ((tree.sortedKeys ascending).dropWhile (BTree.beforeSeek start stop ascending)) := by
  have hsorted := (tree.pairwise_sortedKeys ascending).sublist
    (List.dropWhile_sublist (BTree.beforeSeek start stop ascending))
  suffices hlands : Lands On ascending
      (fun k => k ∈ tree ∧ BTree.beforeSeek start stop ascending k = false)
      (position c iter start stop ascending) from
    hlands.atHead hsorted fun k => BTree.mem_dropWhile_beforeSeek
  cases ascending with
  | true =>
    cases start with
    | none => exact (h.first iter).congr fun k => by simp [BTree.beforeSeek]
    | some start => exact (h.seek start iter).congr fun k => by simp [BTree.beforeSeek]
  | false =>
    cases stop with
    | none => exact (h.last iter).congr fun k => by simp [BTree.beforeSeek]
    | some stop =>
      have hbefore : ∀ k, BTree.beforeSeek start (some stop) false k = false ↔ k < stop := by
        simp [BTree.beforeSeek]
      have hseek := h.seek stop iter
      cases hmove : c.seek stop iter with
      | mk valid iter' =>
        simp only [position, Bool.false_eq_true, if_false, hmove]
        rw [hmove] at hseek
        cases hseek with
        | absent hnone =>
          -- no key is at or above the end, so all are below it
          refine (h.last iter').congr fun k => ?_
          rw [hbefore]
          exact ⟨fun hk => ⟨hk, not_le.mp fun hle => hnone k ⟨hk, hle⟩⟩, And.left⟩
        | @found _ k₀ hk₀ hleast hon =>
          -- between the end and the key that was found there is none
          refine (h.prev hon).congr fun k => ?_
          rw [hbefore]
          refine and_congr_right fun hk => ⟨fun hlt => ?_, fun hlt => hlt.trans_le hk₀.2⟩
          refine not_le.mp fun hle => ?_
          rcases hleast k ⟨hk, hle⟩ with rfl | habove
          · exact lt_irrefl _ hlt
          · exact lt_asymm hlt ((before_true k₀ k).mp habove)

/-- A new iterator has the keys from the first position on before it. -/
theorem scans_newMemIterator :
    (newMemIterator c iter start stop ascending).Scans tree On
      ((tree.sortedKeys ascending).dropWhile (BTree.beforeSeek start stop ascending)) :=
  MemIterator.scans_recheck h (List.dropWhile_suffix _)
    (atHead_position h iter start stop ascending)

/-- **A full traversal refines the list of keys** of the range. -/
theorem collect_newMemIterator {fuel : ℕ}
    (hfuel : (BTree.newMemIterator start stop tree ascending).length < fuel) :
    (newMemIterator c iter start stop ascending).collect c fuel =
      .ok ((BTree.newMemIterator start stop tree ascending).map fun k => (k, tree.value k)) := by
  have hbounds : (newMemIterator c iter start stop ascending).keyInRange =
      BTree.keyInRange start stop ascending := MemIterator.keyInRange_recheck _
  have hscans := scans_newMemIterator h iter start stop ascending
  rw [hscans.collect h (by rw [hbounds]; exact hfuel), hbounds]
  rfl

end

/-! ### The items of a range -/

/-- The items at keys of the tree. -/
theorem mem_map_value_iff {keys : List Bytes} (hkeys : ∀ k ∈ keys, k ∈ tree) {v : Slice} :
    (k, v) ∈ keys.map (fun k => (k, tree.value k)) ↔ k ∈ keys ∧ tree.lookup k = some v := by
  rw [List.mem_map]
  constructor
  · rintro ⟨k', hk', heq⟩
    obtain ⟨rfl, rfl⟩ := Prod.mk.inj heq
    obtain ⟨v, hv⟩ := mem_iff_exists_lookup.mp (hkeys k' hk')
    rw [BTree.value, hv]
    exact ⟨hk', rfl⟩
  · rintro ⟨hk, hv⟩
    exact ⟨k, hk, by rw [BTree.value, hv, Option.getD_some]⟩

/-- A missing bound is no bound. -/
theorem isKeyInDomain_iff_bounds {start stop : Slice} :
    isKeyInDomain k start stop = true ↔ (∀ s ∈ start, s ≤ k) ∧ ∀ e ∈ stop, k < e := by
  rw [isKeyInDomain_iff]
  refine and_congr_left fun _ => ?_
  cases start with
  | none =>
    have hnil : ([] : Bytes) ≤ k := not_lt.mp List.not_lex_nil
    simp [hnil]
  | some s => simp

/-- **Range iteration is exact**: for bounds that are `nil` or not empty, an iterator of the tree
yields the items with `start ≤ key < end`, each once and in the order of its direction. The
traversal ends after a round for each of them. -/
theorem openIterator_exact (h : c.Documented tree On) (iter : ι) (start stop : Slice)
    (ascending : Bool) (hstart : start ≠ some []) (hstop : stop ≠ some []) :
    ∃ it items, openIterator c iter start stop ascending = .ok it ∧
      (∀ fuel, items.length < fuel → it.collect c fuel = .ok items) ∧
      (∀ k v, (k, v) ∈ items ↔
        tree.lookup k = some v ∧ (∀ s ∈ start, s ≤ k) ∧ ∀ e ∈ stop, k < e) ∧
      items.Pairwise fun a b => Before ascending a.1 b.1 := by
  refine ⟨newMemIterator c iter start stop ascending,
    (BTree.newMemIterator start stop tree ascending).map fun k => (k, tree.value k), ?_, ?_, ?_, ?_⟩
  · rw [openIterator, if_neg (not_or.mpr ⟨hstart, hstop⟩)]
  · intro fuel hfuel
    rw [List.length_map] at hfuel
    exact collect_newMemIterator h iter start stop ascending hfuel
  · intro k v
    rw [mem_map_value_iff fun k hk => (BTree.mem_newMemIterator.mp hk).1, BTree.mem_newMemIterator,
      isKeyInDomain_iff_bounds, and_right_comm]
    exact and_congr_left' (and_iff_right_of_imp fun hv => mem_iff_exists_lookup.mpr ⟨v, hv⟩)
  · exact List.pairwise_map.mpr (BTree.pairwise_newMemIterator start stop tree ascending)

/-- The keys `[1]` and `[4]` and a deletion at `[2]`, downwards from below `[4]` to `[2]`. -/
theorem openIterator_exact_reverse :
    let tree : BTree := ((AList.insert [1] (some [10]) ∅).insert [2] none).insert [4] (some [40])
    let c := SortedCursor.ofMap tree
    ∃ it items, openIterator c none (some [2]) (some [4]) false = .ok it ∧
      (∀ fuel, items.length < fuel → it.collect c fuel = .ok items) ∧
      (∀ k v, (k, v) ∈ items ↔
        tree.lookup k = some v ∧ (∀ s ∈ some [2], s ≤ k) ∧ ∀ e ∈ some [4], k < e) ∧
      items.Pairwise fun a b => Before false a.1 b.1 :=
  openIterator_exact (SortedCursor.documented_ofMap _) none (some [2]) (some [4]) false
    (by decide) (by decide)

end MelodiaStore
