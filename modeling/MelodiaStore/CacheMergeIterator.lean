import MelodiaStore.MergeIterator

/-!
# The Merge Iterator of the Cache Store

The iterators of `cachekv/internal`: the B-tree that keeps cached values sorted, the
`memIterator` over a range of it, and `cacheMergeIterator`, which lays it over an iterator of
the parent store. The loops of the merge iterator are those of `mvsMergeIterator`
(`MelodiaStore.MergeIterator`), but they run when the iterator is made and when it moves on,
and not with every call: in between a flag says whether there is an entry.

The B-tree is a third-party package, modelled as a map. Its iterator is here the list of the
keys it meets; `MelodiaStore.MemIterator` has the iterator over a cursor, which refines the list.

## Main results

* `mem_newMemIterator`: an iterator of the tree meets the keys of the range.
* `CacheMergeIterator.Ready`: what holds of an iterator between calls; `Ready.key`,
  `Ready.value` and `Ready.next` say that it is a cursor over the list
  `CacheMergeIterator.entries`.
* `Ready.collect`: a full traversal yields that list.
-/

namespace MelodiaStore

/-! ### The tree and its iterator -/

/-- `internal.BTree`: values by key, `nil` standing for a deletion. -/
abbrev BTree := GoMap Bytes Slice

namespace BTree

variable {ascending : Bool} {start stop : Slice} {tree : BTree} {k a b : Bytes}

/-- The keys of the tree, in the order in which a cursor of it meets them. -/
def sortedKeys (tree : BTree) (ascending : Bool) : List Bytes :=
  (traverse tree (fun _ => true) ascending).map Prod.fst

/-- The value of the item at a key. -/
def value (tree : BTree) (key : Bytes) : Slice := (tree.lookup key).getD none

/-- `memIterator.keyInRange`: the bound at which the iterator stops. -/
def keyInRange (start stop : Slice) (ascending : Bool) (key : Bytes) : Bool :=
  if ascending then stop.all fun stop => decide (key < stop)
  else start.all fun start => decide (start ≤ key)

/-- The keys that come before the first position of the iterator: `Seek` goes to the first
key at or after `start`, or, downwards, to the one before `end`. -/
def beforeSeek (start stop : Slice) (ascending : Bool) (key : Bytes) : Bool :=
  if ascending then start.any fun start => decide (key < start)
  else stop.any fun stop => decide (stop ≤ key)

/-- `newMemIterator`, as the keys that it has ahead. -/
def newMemIterator (start stop : Slice) (tree : BTree) (ascending : Bool) : List Bytes :=
  ((tree.sortedKeys ascending).dropWhile (beforeSeek start stop ascending)).takeWhile
    (keyInRange start stop ascending)

/-- `BTree.Iterator` and `BTree.ReverseIterator`. -/
def iterator (tree : BTree) (start stop : Slice) (ascending : Bool) :
    Except Panic (List Bytes) :=
  if start = some [] ∨ stop = some [] then .error (.error "key cannot be empty")
  else .ok (newMemIterator start stop tree ascending)

theorem mem_sortedKeys : k ∈ tree.sortedKeys ascending ↔ k ∈ tree := by
  rw [sortedKeys, List.mem_map, mem_iff_exists_lookup]
  constructor
  · rintro ⟨⟨k, v⟩, he, rfl⟩
    exact ⟨v, mem_entries_iff.mp (mem_traverse.mp he).2⟩
  · rintro ⟨v, hv⟩
    exact ⟨(k, v), mem_traverse.mpr ⟨rfl, mem_entries_iff.mpr hv⟩, rfl⟩

theorem pairwise_sortedKeys (tree : BTree) (ascending : Bool) :
    (tree.sortedKeys ascending).Pairwise (Before ascending) :=
  List.pairwise_map.mpr (pairwise_traverse _ _ _)

theorem pairwise_newMemIterator (start stop : Slice) (tree : BTree) (ascending : Bool) :
    (newMemIterator start stop tree ascending).Pairwise (Before ascending) :=
  (tree.pairwise_sortedKeys ascending).sublist
    ((List.takeWhile_sublist _).trans (List.dropWhile_sublist _))

/-- A key is in the domain when it is past the first position and before the last. -/
theorem isKeyInDomain_eq (start stop : Slice) (ascending : Bool) (key : Bytes) :
    isKeyInDomain key start stop =
      (!beforeSeek start stop ascending key && keyInRange start stop ascending key) := by
  have hnil : ([] : Bytes) ≤ key := not_lt.mp List.not_lex_nil
  cases ascending <;> cases start <;> cases stop <;>
    simp [isKeyInDomain, beforeSeek, keyInRange, hnil, ← decide_not, Bool.and_comm]

/-- A key that comes before one that the first position is past is passed too. -/
theorem beforeSeek_of_before (hab : Before ascending a b)
    (hb : beforeSeek start stop ascending b = true) : beforeSeek start stop ascending a = true := by
  cases ascending with
  | true =>
    simp only [beforeSeek, if_true, Option.any_eq_true, decide_eq_true_eq] at hb ⊢
    obtain ⟨s, hs, hbs⟩ := hb
    exact ⟨s, hs, ((before_true a b).mp hab).trans hbs⟩
  | false =>
    simp only [beforeSeek, Bool.false_eq_true, if_false, Option.any_eq_true,
      decide_eq_true_eq] at hb ⊢
    obtain ⟨s, hs, hbs⟩ := hb
    exact ⟨s, hs, hbs.trans ((before_false a b).mp hab).le⟩

/-- A key that comes before one in the range does not stop the iterator. -/
theorem keyInRange_of_before (hab : Before ascending a b)
    (hb : keyInRange start stop ascending b = true) : keyInRange start stop ascending a = true := by
  cases ascending with
  | true =>
    simp only [keyInRange, if_true, Option.all_eq_true, decide_eq_true_eq] at hb ⊢
    exact fun s hs => ((before_true a b).mp hab).trans (hb s hs)
  | false =>
    simp only [keyInRange, Bool.false_eq_true, if_false, Option.all_eq_true,
      decide_eq_true_eq] at hb ⊢
    exact fun s hs => (hb s hs).trans ((before_false a b).mp hab).le

/-- The keys from the first position on. -/
theorem mem_dropWhile_beforeSeek :
    k ∈ (tree.sortedKeys ascending).dropWhile (beforeSeek start stop ascending) ↔
      k ∈ tree ∧ beforeSeek start stop ascending k = false := by
  rw [mem_dropWhile_of_pairwise (tree.pairwise_sortedKeys ascending)
    fun _ _ => beforeSeek_of_before, mem_sortedKeys]

/-- **An iterator of the tree** meets the keys of the tree in the range. -/
theorem mem_newMemIterator :
    k ∈ newMemIterator start stop tree ascending ↔
      k ∈ tree ∧ isKeyInDomain k start stop = true := by
  have hsorted := (tree.pairwise_sortedKeys ascending).sublist
    (List.dropWhile_sublist (beforeSeek start stop ascending))
  rw [newMemIterator, mem_takeWhile_of_pairwise hsorted fun _ _ => keyInRange_of_before,
    mem_dropWhile_beforeSeek, isKeyInDomain_eq start stop ascending, Bool.and_eq_true,
    Bool.not_eq_true', and_assoc]

/-- The calls a merge iterator makes, on a tree that nothing else changes. -/
def callbacks (tree : BTree) : Callbacks Unit where
  value key := pure (tree.value key)
  updateReadSet _ _ := pure ⟨⟩

/-- The tree answers for its keys. -/
theorem serves_callbacks (tree : BTree) (L : Bytes → Prop) (B : Bytes × Bytes → Prop) :
    MergeIterator.Serves tree.callbacks (fun _ _ => True) (fun _ => False) tree.value L B where
  value _ _ := .of_ok rfl trivial
  update _ _ _ := .of_ok rfl trivial

end BTree

/-! ### The merge iterator -/

/-- `cacheMergeIterator`: the cursors, the tree behind the cache iterator, and the flag. -/
structure CacheMergeIterator where
  cursors : MergeIterator
  tree : BTree
  valid : Bool

namespace CacheMergeIterator

/-- `iter.valid = iter.skipUntilExistsOrInvalid()`. -/
def refresh (it : CacheMergeIterator) : Except Panic CacheMergeIterator := do
  let (valid, cursors) ← stateless (it.cursors.valid it.tree.callbacks)
  pure { it with cursors := cursors, valid := valid }

/-- `assertValid`. -/
def assertValid (it : CacheMergeIterator) : Except Panic Unit :=
  if it.valid then .ok () else .error (.error "invalid cacheMergeIterator")

/-- `Next`. -/
def next (it : CacheMergeIterator) : Except Panic CacheMergeIterator := do
  it.assertValid
  refresh { it with cursors := it.cursors.advance }

/-- `Key`. -/
def key (it : CacheMergeIterator) : Except Panic Bytes := do
  it.assertValid
  match it.cursors.side with
  | .cache => it.cursors.cacheKey
  | .parent | .both => pure (← it.cursors.parentEntry).1

/-- `Value`. -/
def value (it : CacheMergeIterator) : Except Panic Slice := do
  it.assertValid
  match it.cursors.side with
  | .parent => pure (some (← it.cursors.parentEntry).2)
  | .cache | .both => pure (it.tree.value (← it.cursors.cacheKey))

/-- A full traversal, `for ; it.Valid(); it.Next()`, of at most `fuel` rounds, with what `Key`
and `Value` return on the way. -/
def collect : ℕ → CacheMergeIterator → Except Panic (List (Bytes × Slice))
  | 0, _ => .error .outOfFuel
  | fuel + 1, it =>
    if it.valid then do
      let key ← it.key
      let value ← it.value
      let it ← it.next
      let rest ← collect fuel it
      pure ((key, value) :: rest)
    else .ok []

end CacheMergeIterator

/-- `NewCacheMergeIterator`. -/
def newCacheMergeIterator (parent : List (Bytes × Bytes)) (tree : BTree) (cache : List Bytes)
    (ascending : Bool) : Except Panic CacheMergeIterator :=
  CacheMergeIterator.refresh ⟨⟨parent, cache, ascending⟩, tree, false⟩

namespace CacheMergeIterator

variable {it : CacheMergeIterator} {e : Bytes × Bytes} {es : List (Bytes × Bytes)}

/-! ### The cursor -/

/-- The entries ahead. -/
def entries (it : CacheMergeIterator) : List (Bytes × Bytes) := it.cursors.entries it.tree.value

/-- **What holds of an iterator between calls**: its cursors stand on the next entry, and the
flag says whether there is one. -/
structure Ready (it : CacheMergeIterator) : Prop where
  within : ∃ L, it.cursors.Within L (fun _ => True)
  settled : Settled it.cursors.ascending it.tree.value it.cursors.parent it.cursors.cache
  valid_eq : it.valid = !it.entries.isEmpty

/-- The loop makes an iterator ready, and keeps the entries ahead. -/
theorem exists_refresh (it : CacheMergeIterator) {L : Bytes → Prop}
    (h : it.cursors.Within L (fun _ => True)) :
    ∃ it', it.refresh = .ok it' ∧ it'.Ready ∧ it'.entries = it.entries := by
  have hrun := (MergeIterator.consults_valid (R := ∅) (s := ())
    (it.tree.serves_callbacks L fun _ => True) h trivial).stateless_eq
  have hentries : (it.cursors.settled it.tree.value).entries it.tree.value = it.entries :=
    MergeIterator.entries_settled h
  refine ⟨⟨it.cursors.settled it.tree.value, it.tree, !it.entries.isEmpty⟩,
    by rw [refresh, hrun]; rfl, ⟨⟨L, h.settled⟩, settled_settle _ _, ?_⟩, hentries⟩
  exact congrArg (fun l => !List.isEmpty l) hentries.symm

section

variable (h : it.Ready)
include h

theorem Ready.assertValid_cons (hes : it.entries = e :: es) : it.assertValid = .ok () := by
  rw [assertValid, h.valid_eq, hes]
  rfl

theorem Ready.assertValid_nil (hes : it.entries = []) :
    it.assertValid = .error (.error "invalid cacheMergeIterator") := by
  rw [assertValid, h.valid_eq, hes]
  rfl

/-- **`Next`** drops the entry. -/
theorem Ready.next (hes : it.entries = e :: es) :
    ∃ it', it.next = .ok it' ∧ it'.Ready ∧ it'.entries = es := by
  obtain ⟨L, hwithin⟩ := h.within
  obtain ⟨⟨hentries, hwithin'⟩, -⟩ := MergeIterator.settled_front hwithin h.settled hes
  obtain ⟨it', hrun, hready, heq⟩ :=
    exists_refresh { it with cursors := it.cursors.advance } hwithin'
  refine ⟨it', ?_, hready, heq.trans hentries⟩
  rw [CacheMergeIterator.next, h.assertValid_cons hes]
  exact hrun

/-- **`Key`** is the key of the entry. -/
theorem Ready.key (hes : it.entries = e :: es) : it.key = .ok e.1 := by
  obtain ⟨L, hwithin⟩ := h.within
  obtain ⟨-, hfront, -⟩ := MergeIterator.settled_front hwithin h.settled hes
  rw [CacheMergeIterator.key, h.assertValid_cons hes]
  rcases hfront with ⟨hside, hentry, -⟩ | ⟨hside | ⟨hside, e', hentry, he'⟩, hkey, -⟩
  · rw [hside, hentry]
    rfl
  · rw [hside]
    exact hkey
  · rw [hside, hentry, ← he']
    rfl

/-- **`Value`** is the value of the entry. -/
theorem Ready.value (hes : it.entries = e :: es) : it.value = .ok (some e.2) := by
  obtain ⟨L, hwithin⟩ := h.within
  obtain ⟨-, hfront, -⟩ := MergeIterator.settled_front hwithin h.settled hes
  rw [CacheMergeIterator.value, h.assertValid_cons hes]
  rcases hfront with ⟨hside, hentry, -⟩ | ⟨hside | ⟨hside, -⟩, hkey, -, hv, -⟩
  · rw [hside, hentry]
    rfl
  · rw [hside, hkey, ← hv]
    rfl
  · rw [hside, hkey, ← hv]
    rfl

/-- **A full traversal** yields the entries ahead. -/
theorem Ready.collect {fuel : ℕ} (hfuel : it.entries.length < fuel) :
    it.collect fuel = .ok (it.entries.map fun e => (e.1, some e.2)) := by
  induction fuel generalizing it with
  | zero => omega
  | succ fuel ih =>
    rw [CacheMergeIterator.collect, h.valid_eq]
    cases hes : it.entries with
    | nil => rfl
    | cons e es =>
      obtain ⟨it', hnext, hready, hrest⟩ := h.next hes
      have hlt : it'.entries.length < fuel := by
        rw [hes, List.length_cons] at hfuel
        rw [hrest]
        omega
      rw [h.key hes, h.value hes, hnext]
      have hcollect := ih hready hlt
      rw [hrest] at hcollect
      simp only [List.isEmpty_cons, Bool.not_false, if_true, List.map_cons]
      change (it'.collect fuel >>= fun rest => pure ((e.1, some e.2) :: rest)) = _
      rw [hcollect]
      rfl

end

end CacheMergeIterator

end MelodiaStore
