import MelodiaStore.PrefixStore
import MelodiaStore.Words

/-!
# Pages of a Prefix

`types/iterator.go`: an iterator over the keys with a prefix that shows one page of them. Its
constructor moves the iterator of the store past `(page - 1) * limit` entries, a product of
64-bit words; behind that the iterator is valid for `limit` entries.

The iterator of the store is the list of entries still ahead, as in `KVStore`.

## Main results

* `traversePage_exact_iff`: the piece is the one at `(page - 1) * limit` exactly when that
  product is a word, or its remainder already lies behind the last entry.
* `flatten_pages`: the pages up to the last one whose end is a word follow each other without
  a gap.
-/

namespace MelodiaStore

/-! ### The iterators -/

section PrefixIterators

variable {π : Type} [KVStore π]

/-- `KVStorePrefixIterator` and `KVStoreReversePrefixIterator`. -/
def kvStorePrefixIterator (kvs : π) (pfx : Slice) (ascending : Bool) :
    Except Panic (List (Bytes × Bytes)) :=
  KVStore.iterator kvs pfx (prefixEndBytes (pfx.getD [])) ascending

end PrefixIterators

/-- `PaginatedIterator`. -/
structure PaginatedIterator where
  iter : List (Bytes × Bytes)
  page : UInt64
  limit : UInt64
  iterated : UInt64

namespace PaginatedIterator

/-- The loop of `skip`, with `i` entries to go. -/
def skipLoop : UInt64 → List (Bytes × Bytes) → List (Bytes × Bytes)
  | _, [] => []
  | i, entry :: iter => if 0 < i then skipLoop (i - 1) iter else entry :: iter

/-- `skip`. -/
def skip (pi : PaginatedIterator) : PaginatedIterator :=
  { pi with iter := skipLoop ((pi.page - 1) * pi.limit) pi.iter }

/-- `Valid`. -/
def valid (pi : PaginatedIterator) : Bool :=
  if pi.limit ≤ pi.iterated then false else !pi.iter.isEmpty

/-- `Next`. -/
def next (pi : PaginatedIterator) : Except Panic PaginatedIterator :=
  if !pi.valid then
    .error (.text ("PaginatedIterator reached limit " ++ toString pi.limit.toNat))
  else .ok { pi with iter := pi.iter.tail, iterated := pi.iterated + 1 }

/-- `Key` and `Value` of the iterator of the store, at its entry. -/
def entry (pi : PaginatedIterator) : Except Panic (Bytes × Bytes) :=
  pi.iter.head?.elim (.error (.text "iterator is invalid")) .ok

/-- A loop over an iterator, `for ; iter.Valid(); iter.Next()`, that reads every entry. -/
def collect : ℕ → PaginatedIterator → Except Panic (List (Bytes × Bytes))
  | 0, _ => .error .outOfFuel
  | fuel + 1, pi =>
    if pi.valid then do
      let entry ← pi.entry
      let pi ← pi.next
      let rest ← collect fuel pi
      return entry :: rest
    else .ok []

end PaginatedIterator

section Pages

variable {π : Type} [KVStore π]

/-- `KVStorePrefixIteratorPaginated` and `KVStoreReversePrefixIteratorPaginated`. -/
def kvStorePrefixIteratorPaginated (kvs : π) (pfx : Slice) (page limit : UInt64)
    (ascending : Bool) : Except Panic PaginatedIterator := do
  let iter ← kvStorePrefixIterator kvs pfx ascending
  return PaginatedIterator.skip ⟨iter, page, limit, 0⟩

/-- A page that is read to its end. -/
def traversePage (kvs : π) (pfx : Slice) (page limit : UInt64) (ascending : Bool) :
    Except Panic (List (Bytes × Bytes)) := do
  let pi ← kvStorePrefixIteratorPaginated kvs pfx page limit ascending
  pi.collect (pi.iter.length + 1)

end Pages

/-! ### What a page shows -/

/-- A positive word counts down like its value. -/
theorem toNat_sub_one {i : UInt64} (h : 0 < i) : (i - 1).toNat = i.toNat - 1 := by
  have hle : (1 : UInt64) ≤ i := UInt64.le_iff_toNat_le.mpr (UInt64.lt_iff_toNat_lt.mp h)
  rw [UInt64.toNat_sub_of_le _ _ hle]
  rfl

namespace PaginatedIterator

/-- The loop drops entries. -/
theorem skipLoop_eq_drop (i : UInt64) (iter : List (Bytes × Bytes)) :
    skipLoop i iter = iter.drop i.toNat := by
  induction iter generalizing i with
  | nil => simp [skipLoop]
  | cons entry iter ih =>
    rw [skipLoop]
    split
    · next hpos =>
      have hone : i.toNat = (i - 1).toNat + 1 := by
        have := UInt64.lt_iff_toNat_lt.mp hpos
        rw [toNat_sub_one hpos]
        omega
      rw [ih, hone, List.drop_succ_cons]
    · next hzero =>
      have hi : i.toNat = 0 :=
        Nat.eq_zero_of_not_pos fun h => hzero (UInt64.lt_iff_toNat_lt.mpr h)
      rw [hi, List.drop_zero]

/-- One more entry below the limit is counted. -/
theorem toNat_iterated_add_one {pi : PaginatedIterator} (h : ¬ pi.limit ≤ pi.iterated) :
    (pi.iterated + 1).toNat = pi.iterated.toNat + 1 := by
  have hlt : pi.iterated.toNat < pi.limit.toNat := by
    rwa [UInt64.le_iff_toNat_le, not_le] at h
  have hlimit := pi.limit.toNat_lt
  have hone : (1 : UInt64).toNat = 1 := rfl
  rw [UInt64.toNat_add, hone]
  omega

/-- **A loop over the iterator** reads the entries ahead, up to the limit. -/
theorem collect_eq_ok {fuel : ℕ} {pi : PaginatedIterator} (h : pi.iter.length < fuel) :
    pi.collect fuel = .ok (pi.iter.take (pi.limit.toNat - pi.iterated.toNat)) := by
  induction fuel generalizing pi with
  | zero => omega
  | succ fuel ih =>
    rw [collect]
    by_cases hlimit : pi.limit ≤ pi.iterated
    · have hzero : pi.limit.toNat - pi.iterated.toNat = 0 :=
        Nat.sub_eq_zero_of_le (UInt64.le_iff_toNat_le.mp hlimit)
      simp [valid, hlimit, hzero]
    · cases hiter : pi.iter with
      | nil => simp [valid, hiter]
      | cons e iter =>
        have hvalid : pi.valid = true := by simp [valid, hlimit, hiter]
        have hnext : pi.next = .ok { pi with iter, iterated := pi.iterated + 1 } := by
          simp [next, hvalid, hiter]
        have hentry : pi.entry = .ok e := by simp [entry, hiter]
        have hlength : iter.length < fuel := by
          rw [hiter, List.length_cons] at h
          omega
        have hleft : pi.limit.toNat - pi.iterated.toNat =
            pi.limit.toNat - (pi.iterated + 1).toNat + 1 := by
          have := not_le.mp (mt UInt64.le_iff_toNat_le.mpr hlimit)
          rw [toNat_iterated_add_one hlimit]
          omega
        have hrest := @ih { pi with iter, iterated := pi.iterated + 1 } hlength
        rw [if_pos hvalid, hentry, hnext, hleft, List.take_succ_cons]
        change (collect fuel { pi with iter, iterated := pi.iterated + 1 } >>= fun rest =>
          pure (e :: rest)) = _
        rw [hrest]
        rfl

end PaginatedIterator

/-- The number of entries `skip` moves past. -/
theorem toNat_skip {page : UInt64} (limit : UInt64) (hpage : 1 ≤ page) :
    ((page - 1) * limit).toNat = (page.toNat - 1) * limit.toNat % 2 ^ 64 := by
  have hone : (1 : UInt64).toNat = 1 := rfl
  rw [UInt64.toNat_mul, UInt64.toNat_sub_of_le _ _ hpage, hone]

section Results

variable {π : Type}

/-- **A page is a piece of the full traversal**, as long as the limit; where it starts is the
product modulo `2 ^ 64`. A panic of the iterator of the store is passed on. -/
theorem traversePage_eq [KVStore π] (kvs : π) (pfx : Slice) {page : UInt64} (limit : UInt64)
    (ascending : Bool) (hpage : 1 ≤ page) :
    traversePage kvs pfx page limit ascending =
      (kvStorePrefixIterator kvs pfx ascending).map fun l =>
        (l.drop ((page.toNat - 1) * limit.toNat % 2 ^ 64)).take limit.toNat := by
  rw [traversePage, kvStorePrefixIteratorPaginated]
  cases kvStorePrefixIterator kvs pfx ascending with
  | error e => rfl
  | ok l =>
    have hskip : (PaginatedIterator.skip ⟨l, page, limit, 0⟩).iter =
        l.drop ((page.toNat - 1) * limit.toNat % 2 ^ 64) := by
      rw [← toNat_skip limit hpage, ← PaginatedIterator.skipLoop_eq_drop]
      rfl
    exact (PaginatedIterator.collect_eq_ok (Nat.lt_succ_self _)).trans
      (congrArg (fun iter => Except.ok (iter.take limit.toNat)) hskip)

/-- Two pieces of one length of a list without repetitions are equal only at one place, or
behind its end. -/
theorem take_drop_eq_iff {α : Type} {l : List α} (hl : l.Nodup) {a b n : ℕ} (hn : 1 ≤ n)
    (hab : a ≤ b) :
    (l.drop a).take n = (l.drop b).take n ↔ a = b ∨ l.length ≤ a := by
  constructor
  · intro h
    rcases Nat.lt_or_ge a l.length with ha | ha
    · -- the first elements of the two pieces
      have hfirst : l[a]? = l[b]? := by
        have hget := congrArg (fun l => l[0]?) h
        simpa [List.getElem?_take, Nat.pos_of_ne_zero (Nat.one_le_iff_ne_zero.mp hn)] using hget
      exact .inl ((List.getElem?_inj ha hl).mp hfirst)
    · exact .inr ha
  · rintro (rfl | ha)
    · rfl
    · rw [List.drop_eq_nil_of_le ha, List.drop_eq_nil_of_le (ha.trans hab)]

/-- A traversal meets no entry twice. -/
theorem nodup_kvStorePrefixIterator [SortedMapStore π] {kvs : π} {pfx : Slice}
    {ascending : Bool} {l : List (Bytes × Bytes)}
    (h : kvStorePrefixIterator kvs pfx ascending = .ok l) : l.Nodup := by
  refine (SortedMapStore.pairwise_iterator _ _ _ _ _ h).imp ?_
  rintro a b hab rfl
  exact hab.ne rfl

/-- **When a page is the right one.** A page shows the entries at the positions from
`(page - 1) * limit` to `page * limit - 1` of the full traversal if and only if the product is a
word, or the traversal is no longer than what is left of it modulo `2 ^ 64`. -/
theorem traversePage_exact_iff [SortedMapStore π] (kvs : π) (pfx : Slice) (page limit : UInt64)
    (ascending : Bool) (hpage : 1 ≤ page) (hlimit : 1 ≤ limit) :
    (traversePage kvs pfx page limit ascending =
      (kvStorePrefixIterator kvs pfx ascending).map fun l =>
        (l.drop ((page.toNat - 1) * limit.toNat)).take limit.toNat) ↔
    ((page.toNat - 1) * limit.toNat < 2 ^ 64 ∨
      ∀ l, kvStorePrefixIterator kvs pfx ascending = .ok l →
        l.length ≤ (page.toNat - 1) * limit.toNat % 2 ^ 64) := by
  rw [traversePage_eq kvs pfx limit ascending hpage]
  have hword : (page.toNat - 1) * limit.toNat % 2 ^ 64 = (page.toNat - 1) * limit.toNat ↔
      (page.toNat - 1) * limit.toNat < 2 ^ 64 :=
    ⟨fun h => h ▸ Nat.mod_lt _ (by decide), Nat.mod_eq_of_lt⟩
  cases hl : kvStorePrefixIterator kvs pfx ascending with
  | error e => exact iff_of_true rfl (.inr fun l hl => by cases hl)
  | ok l =>
    have hpiece := take_drop_eq_iff (nodup_kvStorePrefixIterator hl)
      (UInt64.le_iff_toNat_le.mp hlimit) (Nat.mod_le ((page.toNat - 1) * limit.toNat) (2 ^ 64))
    rw [hword] at hpiece
    constructor
    · intro h
      refine (hpiece.mp (Except.ok.inj h)).imp_right fun hle l' hl' => ?_
      rwa [← Except.ok.inj hl']
    · intro h
      exact congrArg Except.ok (hpiece.mpr (h.imp_right fun hle => hle l rfl))

/-- Three keys with the prefix `[1]`, and one without it. -/
def threeOfFour : Except Panic DbAdapter := do
  let db ← DbAdapter.empty.set [1, 0] (some [7])
  let db ← db.set [2] (some [5])
  let db ← db.set [1, 2] (some [9])
  db.set [1, 1] (some [8])

/-- The second pages of two entries and of one entry, the latter backwards. -/
theorem traversePage_exact_of_second : ∃ db, threeOfFour = .ok db ∧
    traversePage db (some [1]) 2 2 true = .ok [([1, 2], [9])] ∧
    traversePage db (some [1]) 2 1 false = .ok [([1, 1], [8])] := by
  refine ⟨_, rfl, ?_, ?_⟩
  · exact (traversePage_exact_iff _ _ 2 2 true (by decide) (by decide)).mpr (.inl (by decide))
  · exact (traversePage_exact_iff _ _ 2 1 false (by decide) (by decide)).mpr (.inl (by decide))

/-- **A page far past the end shows the first entries**: with a limit of two, the page
`2 ^ 63 + 1` of a prefix with one key is the first page again. -/
theorem traversePage_wraps : ∃ db : DbAdapter,
    DbAdapter.empty.set [1, 0] (some [7]) = .ok db ∧
      kvStorePrefixIterator db (some [1]) true = .ok [([1, 0], [7])] ∧
      traversePage db (some [1]) 9223372036854775809 2 true = .ok [([1, 0], [7])] ∧
      ([([1, 0], [7])] : List (Bytes × Bytes)).drop
        (((9223372036854775809 : UInt64).toNat - 1) * (2 : UInt64).toNat) = [] :=
  ⟨_, rfl, rfl, traversePage_eq _ _ 2 true (by decide), List.drop_eq_nil_of_le (by decide)⟩

/-- **Pages follow each other without a gap**, as long as their ends are words: read one after
the other, the first `n` pages are the first `n * limit` entries of the traversal. -/
theorem flatten_pages [KVStore π] {kvs : π} {pfx : Slice} {ascending : Bool}
    {l : List (Bytes × Bytes)} (hl : kvStorePrefixIterator kvs pfx ascending = .ok l)
    {limit : UInt64} (hlimit : 1 ≤ limit) {n : ℕ} (hn : n * limit.toNat < 2 ^ 64) :
    ∃ pages, ((List.range n).mapM fun i =>
        traversePage kvs pfx (UInt64.ofNat (i + 1)) limit ascending) = .ok pages ∧
      pages.flatten = l.take (n * limit.toNat) := by
  induction n with
  | zero => exact ⟨[], rfl, by simp⟩
  | succ n ih =>
    have hone : 1 ≤ limit.toNat := UInt64.le_iff_toNat_le.mp hlimit
    have hword : n + 1 < 2 ^ 64 := lt_of_le_of_lt (Nat.le_mul_of_pos_right _ hone) hn
    have hsmall : n * limit.toNat < 2 ^ 64 :=
      lt_of_le_of_lt (Nat.mul_le_mul_right _ (Nat.le_succ n)) hn
    obtain ⟨pages, hrun, hpages⟩ := ih hsmall
    have htoNat : (UInt64.ofNat (n + 1)).toNat = n + 1 := UInt64.toNat_ofNat_of_lt' hword
    have hpage : traversePage kvs pfx (UInt64.ofNat (n + 1)) limit ascending =
        .ok ((l.drop (n * limit.toNat)).take limit.toNat) := by
      have hpos : 1 ≤ UInt64.ofNat (n + 1) := by
        rw [UInt64.le_iff_toNat_le, htoNat]
        exact Nat.le_add_left 1 n
      rw [traversePage_eq kvs pfx limit ascending hpos, hl, htoNat, Nat.add_sub_cancel,
        Nat.mod_eq_of_lt hsmall]
      rfl
    refine ⟨pages ++ [(l.drop (n * limit.toNat)).take limit.toNat], ?_, ?_⟩
    · rw [List.range_succ, List.mapM_append, hrun, List.mapM_cons, hpage]
      rfl
    · rw [List.flatten_append, hpages, List.flatten_singleton, Nat.succ_mul, List.take_add]

/-- Two pages of up to two entries, of a prefix with three keys. -/
theorem flatten_pages_of_two : ∃ db, threeOfFour = .ok db ∧
    ∃ pages, ((List.range 2).mapM fun i =>
        traversePage db (some [1]) (UInt64.ofNat (i + 1)) 2 true) = .ok pages ∧
      pages.flatten = [([1, 0], [7]), ([1, 1], [8]), ([1, 2], [9])] :=
  ⟨_, rfl, flatten_pages (l := [([1, 0], [7]), ([1, 1], [8]), ([1, 2], [9])]) rfl (by decide)
    (by decide)⟩

end Results

end MelodiaStore
