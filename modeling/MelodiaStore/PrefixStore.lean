import MelodiaStore.Simulation
import MelodiaStore.Types

/-!
# Prefix Stores

`prefix/store.go`: the part of a parent store whose keys start with a given prefix, with the
prefix left out. An iterator of the part is an iterator of the parent over a range whose ends
have the prefix put in front; where there is no end, the range ends at the first key past all
those that start with the prefix (`PrefixEndBytes`), if there is one.

The parent is any store that behaves as a sorted map on the keys it accepts. What it accepts is
left open: some stores refuse keys that are too long.

## Main results

* `prefixEndBytes_exact`: the same with the two kinds of end apart, and when there is none.
* `PrefixStore.behaves_as_view`: every sequence of calls answers as a plain map does, and leaves
  the other keys of the parent alone.
-/

namespace MelodiaStore

/-! ### The end of a prefix -/

variable {b c : UInt8} {pfx x : Bytes}

/-- The loop of `PrefixEndBytes`, with the bytes from the last one to the first. -/
def endBytesLoop : Bytes → Slice
  | [] => none
  | b :: rest => if b ≠ 255 then some (rest.reverse ++ [b + 1]) else endBytesLoop rest

/-- `types.PrefixEndBytes`. -/
def prefixEndBytes (pfx : Bytes) : Slice := endBytesLoop pfx.reverse

theorem endBytesLoop_append (l : Bytes) (b : UInt8) :
    endBytesLoop (l ++ [b]) =
      (endBytesLoop l).elim (if b ≠ 255 then some [b + 1] else none) fun e => some (b :: e) := by
  induction l with
  | nil => rfl
  | cons c l ih =>
    rw [List.cons_append, endBytesLoop, endBytesLoop]
    split
    · rw [List.reverse_append]
      rfl
    · exact ih

/-- The end of a prefix, from its first byte. -/
theorem prefixEndBytes_cons (b : UInt8) (pfx : Bytes) :
    prefixEndBytes (b :: pfx) =
      (prefixEndBytes pfx).elim (if b ≠ 255 then some [b + 1] else none)
        fun e => some (b :: e) := by
  rw [prefixEndBytes, List.reverse_cons, endBytesLoop_append]
  rfl

/-- No end is empty. -/
theorem prefixEndBytes_ne_nil (pfx : Bytes) : prefixEndBytes pfx ≠ some [] := by
  cases pfx with
  | nil => nofun
  | cons b pfx =>
    rw [prefixEndBytes_cons]
    cases prefixEndBytes pfx with
    | none =>
      rw [Option.elim_none]
      split <;> simp
    | some e => simp

/-- The byte after one that is not the last. -/
theorem lt_add_one_iff (hb : b ≠ 255) : c < b + 1 ↔ c ≤ b := by
  have hlt : b.toNat < 255 :=
    lt_of_le_of_ne (Nat.le_of_lt_succ b.toNat_lt) fun h => hb (UInt8.toNat_inj.mp h)
  rw [UInt8.lt_iff_toNat_lt, UInt8.le_iff_toNat_le, UInt8.toNat_add]
  have hone : (1 : UInt8).toNat = 1 := rfl
  omega

theorem le_last (c : UInt8) : c ≤ 255 :=
  UInt8.le_iff_toNat_le.mpr (Nat.le_of_lt_succ c.toNat_lt)

/-- A key before the end of a prefix has no greater first byte. -/
theorem head_le_of_lt_prefixEndBytes (h : ∀ e, prefixEndBytes (b :: pfx) = some e → c :: x < e) :
    c ≤ b := by
  rw [prefixEndBytes_cons] at h
  cases hend : prefixEndBytes pfx with
  | none =>
    rw [hend, Option.elim_none] at h
    by_cases hb : b = 255
    · exact hb ▸ le_last c
    · rcases List.cons_lt_cons_iff.mp (h _ (if_pos hb)) with hc | ⟨-, hx⟩
      · exact (lt_add_one_iff hb).mp hc
      · exact absurd hx (List.not_lt_nil x)
  | some e =>
    rw [hend] at h
    rcases List.cons_lt_cons_iff.mp (h _ rfl) with hc | ⟨rfl, -⟩
    · exact le_of_lt hc
    · exact le_rfl

theorem cons_lt_prefixEndBytes_cons :
    (∀ e, prefixEndBytes (b :: pfx) = some e → b :: x < e) ↔
      ∀ e, prefixEndBytes pfx = some e → x < e := by
  rw [prefixEndBytes_cons]
  cases prefixEndBytes pfx with
  | none =>
    rw [Option.elim_none]
    split
    · next hb =>
      have hlt : b :: x < [b + 1] :=
        List.cons_lt_cons_iff.mpr (.inl ((lt_add_one_iff hb).mpr le_rfl))
      simpa using hlt
    · simp
  | some e => simp

/-- **The keys between a prefix and its end** are those that start with it. -/
theorem between_prefixEndBytes :
    (pfx ≤ x ∧ ∀ e, prefixEndBytes pfx = some e → x < e) ↔ pfx <+: x := by
  induction pfx generalizing x with
  | nil =>
    have hle : [] ≤ x := not_lt.mp (List.not_lt_nil x)
    simp [prefixEndBytes, endBytesLoop, hle]
  | cons b pfx ih =>
    cases x with
    | nil =>
      have hlt : ([] : Bytes) < b :: pfx := List.nil_lt_cons b pfx
      simp [not_le.mpr hlt]
    | cons c x =>
      rw [List.cons_prefix_cons, ← ih, ← not_lt, List.cons_lt_cons_iff]
      constructor
      · rintro ⟨hle, hend⟩
        obtain rfl : c = b := le_antisymm (head_le_of_lt_prefixEndBytes hend)
          (not_lt.mp fun h => hle (.inl h))
        exact ⟨rfl, not_lt.mp fun h => hle (.inr ⟨rfl, h⟩),
          cons_lt_prefixEndBytes_cons.mp hend⟩
      · rintro ⟨rfl, hle, hend⟩
        refine ⟨?_, cons_lt_prefixEndBytes_cons.mpr hend⟩
        rintro (h | ⟨-, h⟩)
        · exact lt_irrefl b h
        · exact not_lt.mpr hle h

/-- A prefix has no end exactly when it has no byte that can be increased. -/
theorem prefixEndBytes_eq_none_iff : prefixEndBytes pfx = none ↔ ∀ b ∈ pfx, b = 255 := by
  induction pfx with
  | nil => simp [prefixEndBytes, endBytesLoop]
  | cons b pfx ih =>
    rw [prefixEndBytes_cons, List.forall_mem_cons, ← ih]
    cases prefixEndBytes pfx with
    | none => simp
    | some e => simp

/-- **The bounds of a prefix are exact**: a key starts with the prefix exactly when it is not
below it and below its end, if there is one; there is none exactly when every byte is `0xFF`. -/
theorem prefixEndBytes_exact (pfx : Bytes) :
    (∀ k, pfx <+: k ↔ pfx ≤ k ∧
      (prefixEndBytes pfx = none ∨ ∃ e, prefixEndBytes pfx = some e ∧ k < e)) ∧
    (prefixEndBytes pfx = none ↔ ∀ b ∈ pfx, b = 255) := by
  refine ⟨fun k => ?_, prefixEndBytes_eq_none_iff⟩
  rw [← between_prefixEndBytes]
  cases prefixEndBytes pfx with
  | none => simp
  | some e => simp

/-! ### The parent -/

/-- `Has` of `types.BasicKVStore`. -/
class HasKVStore (π : Type) where
  has : π → Bytes → Except Panic Bool

/-- **The contract of the parent**: a map whose non-empty keys can be read and deleted, and
set where the store accepts the key; an iterator over bounds that are `nil` or non-empty meets
the entries of the range once, in its order. -/
class SortedMapStore (π : Type) extends KVStore π, HasKVStore π where
  contents : π → Bytes → Slice
  Accepts : Bytes → Prop
  get_eq : ∀ p k, k ≠ [] → get p k = .ok (contents p k)
  has_eq : ∀ p k, k ≠ [] → has p k = .ok (contents p k).isSome
  set_eq : ∀ p k v, k ≠ [] → Accepts k → ValidValue v → ∃ p', set p k (some v) = .ok p' ∧
    ∀ k', contents p' k' = if k' = k then some v else contents p k'
  set_refused : ∀ p k v, ¬ Accepts k → ∃ e, set p k v = .error e
  delete_eq : ∀ p k, k ≠ [] → ∃ p', delete p k = .ok p' ∧
    ∀ k', contents p' k' = if k' = k then none else contents p k'
  exists_iterator : ∀ p start stop ascending, start ≠ some [] → stop ≠ some [] →
    ∃ l, iterator p start stop ascending = .ok l
  mem_iterator : ∀ p start stop ascending l, iterator p start stop ascending = .ok l →
    ∀ k v, (k, v) ∈ l ↔ isKeyInDomain k start stop = true ∧ contents p k = some v
  pairwise_iterator : ∀ p start stop ascending l, iterator p start stop ascending = .ok l →
    l.Pairwise fun a b => Before ascending a.1 b.1

/-- A database accepts the keys that `AssertValidKey` lets pass. -/
instance instSortedMapStoreDbAdapter : SortedMapStore DbAdapter where
  has := DbAdapter.has
  contents := DbAdapter.lookup
  Accepts := ValidKey
  get_eq _ _ hk := DbAdapter.get_of_ne_nil hk
  has_eq _ _ hk := DbAdapter.has_of_ne_nil hk
  set_eq p k v _ hk hv := ⟨p.insert k hk v, DbAdapter.set_of_valid hk hv, p.lookup_insert k hk v⟩
  set_refused _ _ _ hk := DbAdapter.set_of_not_valid hk
  delete_eq p k hk := ⟨p.erase k, DbAdapter.delete_of_ne_nil hk, p.lookup_erase k⟩
  exists_iterator p _ _ ascending := p.exists_iterator ascending
  mem_iterator _ _ _ _ _ h _ _ := DbAdapter.mem_iterator h
  pairwise_iterator _ _ _ _ _ h := DbAdapter.pairwise_iterator h

/-! ### The store -/

/-- `cloneAppend`. -/
def cloneAppend (bz : Bytes) (tail : Slice) : Bytes := bz ++ tail.getD []

/-- `cpIncr`. -/
def cpIncr (bz : Bytes) : Slice := prefixEndBytes bz

/-- `stripPrefix`. -/
def stripPrefix (key pfx : Bytes) : Except Panic Bytes :=
  if key.length < pfx.length ∨ key.take pfx.length ≠ pfx then .error (.text "should not happen")
  else .ok (key.drop pfx.length)

/-- The prefix comes off. -/
theorem stripPrefix_append (pfx k : Bytes) : stripPrefix (pfx ++ k) pfx = .ok k := by
  rw [stripPrefix, if_neg, List.drop_left]
  simp

/-- `prefixIterator`; the iterator of the parent is the list of entries still ahead. Its
`start` and `end`, which only `Domain` returns, are left out. -/
structure PrefixIterator where
  pfx : Bytes
  iter : List (Bytes × Bytes)
  valid : Bool

namespace PrefixIterator

/-- The key of the iterator of the parent starts with the prefix. -/
def hasPrefix (pfx : Bytes) (iter : List (Bytes × Bytes)) : Bool :=
  iter.head?.any fun e => pfx.isPrefixOf e.1

/-- `newPrefixIterator`. -/
def newPrefixIterator (pfx : Bytes) (iter : List (Bytes × Bytes)) : PrefixIterator :=
  ⟨pfx, iter, hasPrefix pfx iter⟩

/-- `Valid`. -/
def isValid (it : PrefixIterator) : Bool := it.valid && !it.iter.isEmpty

/-- The entry the iterator of the parent is at. -/
def parentEntry (it : PrefixIterator) : Except Panic (Bytes × Bytes) :=
  it.iter.head?.elim (.error (.text "iterator is invalid")) .ok

/-- `Next`. -/
def next (it : PrefixIterator) : Except Panic PrefixIterator := do
  if !it.valid then
    throw (.text "prefixIterator invalid, cannot call Next()")
  let _ ← it.parentEntry
  let iter := it.iter.tail
  return { it with iter, valid := hasPrefix it.pfx iter }

/-- `Key`. -/
def key (it : PrefixIterator) : Except Panic Bytes := do
  if !it.valid then
    throw (.text "prefixIterator invalid, cannot call Key()")
  let entry ← it.parentEntry
  stripPrefix entry.1 it.pfx

/-- `Value`. -/
def value (it : PrefixIterator) : Except Panic Bytes := do
  if !it.valid then
    throw (.text "prefixIterator invalid, cannot call Value()")
  let entry ← it.parentEntry
  return entry.2

/-- A loop over an iterator, `for ; iter.Valid(); iter.Next()`, that reads every entry. -/
def collect : ℕ → PrefixIterator → Except Panic (List (Bytes × Bytes))
  | 0, _ => .error .outOfFuel
  | fuel + 1, it =>
    if it.isValid then do
      let key ← it.key
      let value ← it.value
      let it ← it.next
      let rest ← collect fuel it
      return (key, value) :: rest
    else .ok []

end PrefixIterator

/-- `prefix.Store`. -/
structure PrefixStore (π : Type) where
  parent : π
  pfx : Bytes

namespace PrefixStore

variable {π : Type}

/-- `prefix.NewStore`. -/
def newStore (parent : π) (pfx : Bytes) : PrefixStore π := ⟨parent, pfx⟩

/-- `Store.key`. -/
def key (s : PrefixStore π) (key : Slice) : Except Panic Bytes :=
  match key with
  | none => .error (.text "nil key on Store")
  | some _ => .ok (cloneAppend s.pfx key)

/-- `Store.Get`. -/
def get [BasicKVStore π] (s : PrefixStore π) (key : Slice) : Except Panic Slice := do
  let key ← s.key key
  BasicKVStore.get s.parent key

/-- `Store.Has`. -/
def has [HasKVStore π] (s : PrefixStore π) (key : Slice) : Except Panic Bool := do
  let key ← s.key key
  HasKVStore.has s.parent key

/-- `Store.Set`. -/
def set [BasicKVStore π] (s : PrefixStore π) (key value : Slice) :
    Except Panic (PrefixStore π) := do
  assertValidKey (key.getD [])
  assertValidValue value
  let key ← s.key key
  let parent ← BasicKVStore.set s.parent key value
  return { s with parent }

/-- `Store.Delete`. -/
def delete [BasicKVStore π] (s : PrefixStore π) (key : Slice) : Except Panic (PrefixStore π) := do
  let key ← s.key key
  let parent ← BasicKVStore.delete s.parent key
  return { s with parent }

/-- The end of the range of the parent. -/
def newend (s : PrefixStore π) (stop : Slice) : Slice :=
  match stop with
  | none => cpIncr s.pfx
  | some _ => some (cloneAppend s.pfx stop)

/-- `Store.Iterator` and `Store.ReverseIterator`. -/
def iterator [KVStore π] (s : PrefixStore π) (start stop : Slice) (ascending : Bool) :
    Except Panic PrefixIterator := do
  let newstart := cloneAppend s.pfx start
  let iter ← KVStore.iterator s.parent (some newstart) (s.newend stop) ascending
  return .newPrefixIterator s.pfx iter

/-- An iterator that is read to its end. -/
def traverse [KVStore π] (s : PrefixStore π) (start stop : Slice) (ascending : Bool) :
    Except Panic (List (Bytes × Bytes)) := do
  let it ← s.iterator start stop ascending
  it.collect (it.iter.length + 1)

end PrefixStore

/-! ### Traversals -/

namespace PrefixIterator

variable {pfx : Bytes}

/-- The entries with the prefix put in front of their keys. -/
def withPrefix (pfx : Bytes) (l : List (Bytes × Bytes)) : List (Bytes × Bytes) :=
  l.map fun e => (pfx ++ e.1, e.2)

/-- A prefix keeps the order. -/
theorem pairwise_withPrefix {l : List (Bytes × Bytes)} {ascending : Bool} :
    ((withPrefix pfx l).Pairwise fun a b => Before ascending a.1 b.1) ↔
      l.Pairwise fun a b => Before ascending a.1 b.1 := by
  simp only [withPrefix, List.pairwise_map, before_append_iff]

/-- Entries whose keys start with the prefix. -/
theorem exists_withPrefix {iter : List (Bytes × Bytes)} (h : ∀ e ∈ iter, pfx <+: e.1) :
    ∃ l, iter = withPrefix pfx l := by
  induction iter with
  | nil => exact ⟨[], rfl⟩
  | cons e iter ih =>
    obtain ⟨x, v⟩ := e
    obtain ⟨l, rfl⟩ := ih fun e he => h e (List.mem_cons_of_mem (x, v) he)
    obtain ⟨k, rfl⟩ := h (x, v) List.mem_cons_self
    exact ⟨(k, v) :: l, rfl⟩

/-- The iterator takes the prefix off. -/
theorem newPrefixIterator_withPrefix (pfx : Bytes) (l : List (Bytes × Bytes)) :
    newPrefixIterator pfx (withPrefix pfx l) = ⟨pfx, withPrefix pfx l, !l.isEmpty⟩ := by
  cases l with
  | nil => rfl
  | cons e l => simp [newPrefixIterator, hasPrefix, withPrefix]

/-- **The loop reads the entries without the prefix.** -/
theorem collect_newPrefixIterator (pfx : Bytes) (l : List (Bytes × Bytes)) {fuel : ℕ}
    (hfuel : l.length < fuel) :
    (newPrefixIterator pfx (withPrefix pfx l)).collect fuel = .ok l := by
  induction l generalizing fuel with
  | nil =>
    obtain ⟨fuel, rfl⟩ := Nat.exists_eq_succ_of_ne_zero (Nat.ne_of_gt hfuel)
    rfl
  | cons e l ih =>
    obtain ⟨fuel, rfl⟩ := Nat.exists_eq_succ_of_ne_zero (Nat.ne_of_gt (Nat.zero_lt_of_lt hfuel))
    have hrest := ih (Nat.lt_of_succ_lt_succ hfuel)
    have hvalid : isValid ⟨pfx, withPrefix pfx (e :: l), true⟩ = true := rfl
    have hkey : key ⟨pfx, withPrefix pfx (e :: l), true⟩ = .ok e.1 := stripPrefix_append pfx e.1
    rw [newPrefixIterator_withPrefix, List.isEmpty_cons, Bool.not_false, collect, if_pos hvalid,
      hkey]
    exact congrArg (Except.map (e :: ·)) hrest

end PrefixIterator

namespace PrefixStore

variable {π : Type} {s : PrefixStore π}

/-- Every key is on its side of the end of the range. -/
theorem lt_newend_append (s : PrefixStore π) (stop : Slice) (k : Bytes) :
    (∀ e, s.newend stop = some e → s.pfx ++ k < e) ↔ ∀ e, stop = some e → k < e := by
  cases stop with
  | none =>
    have hend := (between_prefixEndBytes.mpr (List.prefix_append s.pfx k)).2
    exact ⟨fun _ => by simp, fun _ => hend⟩
  | some stop =>
    simp only [newend, cloneAppend, Option.some.injEq, forall_eq', Option.getD_some,
      append_lt_append_iff]

/-- A key in the range of the parent starts with the prefix. -/
theorem isPrefix_of_lt_newend {stop : Slice} {x : Bytes} (hle : s.pfx ≤ x)
    (hlt : ∀ e, s.newend stop = some e → x < e) : s.pfx <+: x := by
  cases stop with
  | none => exact between_prefixEndBytes.mp ⟨hle, hlt⟩
  | some stop => exact isPrefix_of_le_of_lt hle (hlt _ rfl)

/-- **The range of the parent** is the range of the view with the prefix put in front. -/
theorem isKeyInDomain_newend (s : PrefixStore π) (start stop : Slice) (x : Bytes) :
    isKeyInDomain x (some (cloneAppend s.pfx start)) (s.newend stop) = true ↔
      ∃ k, x = s.pfx ++ k ∧ isKeyInDomain k start stop = true := by
  simp only [isKeyInDomain_iff, Option.getD_some, cloneAppend]
  constructor
  · rintro ⟨hle, hlt⟩
    have hpfx : s.pfx ≤ x := le_trans (le_append s.pfx (start.getD [])) hle
    obtain ⟨k, rfl⟩ := isPrefix_of_lt_newend hpfx hlt
    exact ⟨k, rfl, append_le_append_iff.mp hle, (s.lt_newend_append stop k).mp hlt⟩
  · rintro ⟨k, rfl, hle, hlt⟩
    exact ⟨append_le_append_iff.mpr hle, (s.lt_newend_append stop k).mpr hlt⟩

/-- The bounds given to the parent are not empty. -/
theorem newend_ne_nil (hpfx : s.pfx ≠ []) (stop : Slice) : s.newend stop ≠ some [] := by
  cases stop with
  | none => exact prefixEndBytes_ne_nil s.pfx
  | some stop => simp [newend, cloneAppend, hpfx]

variable [SortedMapStore π]

/-- The part of the parent that the store shows. -/
def view (s : PrefixStore π) (k : Bytes) : Slice := SortedMapStore.contents s.parent (s.pfx ++ k)

/-- **What a traversal shows**: the entries of the range once, in its order, without the
prefix. -/
theorem exists_traverse (hpfx : s.pfx ≠ []) (start stop : Slice) (ascending : Bool) :
    ∃ l, s.traverse start stop ascending = .ok l ∧
      (l.Pairwise fun a b => Before ascending a.1 b.1) ∧
        ∀ k v, (k, v) ∈ l ↔ isKeyInDomain k start stop = true ∧ s.view k = some v := by
  obtain ⟨iter, hiter⟩ := SortedMapStore.exists_iterator s.parent
    (some (cloneAppend s.pfx start)) (s.newend stop) ascending (by simp [cloneAppend, hpfx])
    (newend_ne_nil hpfx stop)
  have hmem := SortedMapStore.mem_iterator s.parent _ _ _ _ hiter
  have hsorted := SortedMapStore.pairwise_iterator s.parent _ _ _ _ hiter
  have hfront : ∀ e ∈ iter, s.pfx <+: e.1 := by
    rintro ⟨x, v⟩ he
    obtain ⟨k, rfl, -⟩ := (s.isKeyInDomain_newend start stop x).mp ((hmem x v).mp he).1
    exact List.prefix_append s.pfx k
  obtain ⟨l, rfl⟩ := PrefixIterator.exists_withPrefix hfront
  refine ⟨l, ?_, PrefixIterator.pairwise_withPrefix.mp hsorted, fun k v => ?_⟩
  · have hlen : l.length < (PrefixIterator.withPrefix s.pfx l).length + 1 := by
      rw [PrefixIterator.withPrefix, List.length_map]
      exact Nat.lt_succ_self _
    rw [traverse, iterator, hiter]
    exact PrefixIterator.collect_newPrefixIterator s.pfx l hlen
  · have hentry := hmem (s.pfx ++ k) v
    rw [isKeyInDomain_newend] at hentry
    simpa [PrefixIterator.withPrefix, view] using hentry

end PrefixStore

/-! ### Sequences of calls -/

/-- A call of a prefix store. -/
inductive PrefixCall
  | set (key value : Slice)
  | delete (key : Slice)
  | get (key : Slice)
  | has (key : Slice)
  | traverse (start stop : Slice) (ascending : Bool)

/-- What a call returns. -/
inductive PrefixAnswer
  | done
  | value (value : Slice)
  | found (found : Bool)
  | pairs (pairs : List (Bytes × Bytes))

/-- The checks of `Store.Set`. -/
def checkSet (key value : Slice) : Except Panic Unit := do
  assertValidKey (key.getD [])
  assertValidValue value

/-- What `Set` accepts. -/
theorem checkSet_eq_ok {key value : Slice} (h : checkSet key value = .ok ()) :
    ∃ k v, key = some k ∧ value = some v ∧ ValidKey k ∧ ValidValue v := by
  obtain ⟨hk, v, rfl, hv⟩ := valid_of_checks h
  cases key with
  | none => exact absurd rfl hk.1
  | some k => exact ⟨k, v, rfl, rfl, hk, hv⟩

/-- What a call does to a plain map of which the keys in `Settable` can be set, and what it
answers. -/
inductive MapStep (Settable : Bytes → Prop) :
    PrefixCall → (Bytes → Slice) → Except Panic PrefixAnswer → (Bytes → Slice) → Prop
  | set {key v : Bytes} {m : Bytes → Slice} (hkey : ValidKey key) (hv : ValidValue v)
      (h : Settable key) :
      MapStep Settable (.set (some key) (some v)) m (.ok .done) (Function.update m key (some v))
  | setInvalid {key value : Slice} {m : Bytes → Slice} {e : Panic}
      (h : checkSet key value = .error e) : MapStep Settable (.set key value) m (.error e) m
  | setRefused {key : Bytes} {value : Slice} {m : Bytes → Slice} {e : Panic}
      (h : ¬ Settable key) : MapStep Settable (.set (some key) value) m (.error e) m
  | delete {key : Bytes} {m : Bytes → Slice} :
      MapStep Settable (.delete (some key)) m (.ok .done) (Function.update m key none)
  | get {key : Bytes} {m : Bytes → Slice} :
      MapStep Settable (.get (some key)) m (.ok (.value (m key))) m
  | has {key : Bytes} {m : Bytes → Slice} :
      MapStep Settable (.has (some key)) m (.ok (.found (m key).isSome)) m
  | nilKey {call : PrefixCall} {m : Bytes → Slice}
      (h : call = .delete none ∨ call = .get none ∨ call = .has none) :
      MapStep Settable call m (.error (.text "nil key on Store")) m
  | traverse {start stop : Slice} {ascending : Bool} {m : Bytes → Slice}
      {l : List (Bytes × Bytes)} (sorted : l.Pairwise fun a b => Before ascending a.1 b.1)
      (mem : ∀ k v, (k, v) ∈ l ↔ isKeyInDomain k start stop = true ∧ m k = some v) :
      MapStep Settable (.traverse start stop ascending) m (.ok (.pairs l)) m

namespace PrefixStore

variable {π : Type} [SortedMapStore π]

/-- Perform a call. -/
def perform : PrefixCall → EStateM Panic (PrefixStore π) PrefixAnswer
  | .set key value => updating (set · key value) .done
  | .delete key => updating (delete · key) .done
  | .get key => reading fun s => (s.get key).map .value
  | .has key => reading fun s => (s.has key).map .found
  | .traverse start stop ascending => reading fun s =>
    (s.traverse start stop ascending).map .pairs

/-- The keys of the view that the parent lets the store set. -/
def Settable (π : Type) [SortedMapStore π] (pfx k : Bytes) : Prop :=
  SortedMapStore.Accepts (π := π) (pfx ++ k)

/-- The store shows the map `m`, and its parent holds what `base` has for the keys without the
prefix. -/
structure Shows (pfx : Bytes) (base : Bytes → Slice) (s : PrefixStore π) (m : Bytes → Slice) :
    Prop where
  pfx_eq : s.pfx = pfx
  view_eq : s.view = m
  outside : ∀ x, ¬ pfx <+: x → SortedMapStore.contents s.parent x = base x

variable {pfx : Bytes} {base m : Bytes → Slice} {s : PrefixStore π}

/-- A new store shows its part. -/
theorem shows_newStore (parent : π) (pfx : Bytes) :
    Shows pfx (SortedMapStore.contents parent) (newStore parent pfx)
      fun k => SortedMapStore.contents parent (pfx ++ k) :=
  ⟨rfl, rfl, fun _ _ => rfl⟩

/-- A write of the parent at a key with the prefix is a write of the view. -/
theorem Shows.write (h : Shows pfx base s m) {p' : π} {k : Bytes} {value : Slice}
    (hp' : ∀ x, SortedMapStore.contents p' x =
      if x = s.pfx ++ k then value else SortedMapStore.contents s.parent x) :
    Shows pfx base { s with parent := p' } (Function.update m k value) where
  pfx_eq := h.pfx_eq
  view_eq := by
    funext k'
    rw [← h.view_eq, Function.update_apply, view, hp']
    simp only [List.append_cancel_left_eq]
    rfl
  outside x hx := by
    rw [hp', if_neg, h.outside x hx]
    rintro rfl
    exact hx (h.pfx_eq ▸ List.prefix_append s.pfx k)

/-- A `Set` is a step of the map. -/
theorem simulates_set (h : Shows pfx base s m) (key value : Slice) :
    ∃ m', MapStep (Settable π pfx) (.set key value) m (outcome (perform (.set key value)) s).1 m' ∧
      Shows pfx base (outcome (perform (.set key value)) s).2 m' := by
  have hset : s.set key value = checkSet key value >>= fun _ => do
      let key ← s.key key
      let parent ← BasicKVStore.set s.parent key value
      return { s with parent } := by
    rw [set, checkSet, bind_assoc]
  cases hcheck : checkSet key value with
  | error e =>
    rw [hcheck] at hset
    rw [perform, outcome_updating_of_error hset]
    exact ⟨m, .setInvalid hcheck, h⟩
  | ok _ =>
    obtain ⟨k, v, rfl, rfl, hk, hv⟩ := checkSet_eq_ok hcheck
    rw [hcheck] at hset
    by_cases haccepts : Settable π pfx k
    · obtain ⟨p', hp', hcontents⟩ := SortedMapStore.set_eq s.parent (s.pfx ++ k) v
        (by simp [hk.1]) (h.pfx_eq ▸ haccepts) hv
      have hok : s.set (some k) (some v) = .ok { s with parent := p' } := by
        rw [hset, key, cloneAppend]
        simp only [bind, Except.bind, Option.getD_some, hp', pure, Except.pure]
      rw [perform, outcome_updating_of_ok hok]
      exact ⟨_, .set hk hv haccepts, h.write hcontents⟩
    · obtain ⟨e, he⟩ := SortedMapStore.set_refused s.parent (s.pfx ++ k) (some v)
        (h.pfx_eq ▸ haccepts)
      have herror : s.set (some k) (some v) = .error e := by
        rw [hset, key, cloneAppend]
        simp only [bind, Except.bind, Option.getD_some, he]
      rw [perform, outcome_updating_of_error herror]
      exact ⟨m, .setRefused haccepts, h⟩

/-- A `Delete` is a step of the map. -/
theorem simulates_delete (hpfx : pfx ≠ []) (h : Shows pfx base s m) (key : Slice) :
    ∃ m', MapStep (Settable π pfx) (.delete key) m (outcome (perform (.delete key)) s).1 m' ∧
      Shows pfx base (outcome (perform (.delete key)) s).2 m' := by
  cases key with
  | none => exact ⟨m, .nilKey (.inl rfl), h⟩
  | some k =>
    obtain ⟨p', hp', hcontents⟩ := SortedMapStore.delete_eq s.parent (s.pfx ++ k)
      (by simp [h.pfx_eq, hpfx])
    have hok : s.delete (some k) = .ok { s with parent := p' } := by
      rw [delete, key, cloneAppend]
      simp only [bind, Except.bind, Option.getD_some, hp', pure, Except.pure]
    rw [perform, outcome_updating_of_ok hok]
    exact ⟨_, .delete, h.write hcontents⟩

/-- **Every call is a step of the plain map.** -/
theorem simulates_view (hpfx : pfx ≠ []) (base : Bytes → Slice) :
    Simulates (Shows (π := π) pfx base) perform (MapStep (Settable π pfx)) fun _ => True := by
  intro call s m _ h
  cases call with
  | set key value => exact simulates_set h key value
  | delete key => exact simulates_delete hpfx h key
  | get key =>
    rw [perform, outcome_reading]
    cases key with
    | none => exact ⟨m, .nilKey (.inr (.inl rfl)), h⟩
    | some k =>
      have hget : s.get (some k) = .ok (s.view k) :=
        SortedMapStore.get_eq s.parent (s.pfx ++ k) (by simp [h.pfx_eq, hpfx])
      rw [hget, h.view_eq]
      exact ⟨m, .get, h⟩
  | has key =>
    rw [perform, outcome_reading]
    cases key with
    | none => exact ⟨m, .nilKey (.inr (.inr rfl)), h⟩
    | some k =>
      have hhas : s.has (some k) = .ok (s.view k).isSome :=
        SortedMapStore.has_eq s.parent (s.pfx ++ k) (by simp [h.pfx_eq, hpfx])
      rw [hhas, h.view_eq]
      exact ⟨m, .has, h⟩
  | traverse start stop ascending =>
    obtain ⟨l, hl, hsorted, hmem⟩ :=
      exists_traverse (s := s) (h.pfx_eq ▸ hpfx) start stop ascending
    rw [perform, outcome_reading, hl]
    exact ⟨m, .traverse hsorted (h.view_eq ▸ hmem), h⟩

/-- **A prefix store is an exact and isolated view**: with a prefix that is not empty, every
sequence of calls answers as the map from `k` to what the parent holds at the prefix followed
by `k`, that map is what the parent holds there at the end, and the parent holds what it held
at every key without the prefix. -/
theorem behaves_as_view (parent : π) (hpfx : pfx ≠ []) (calls : List PrefixCall) :
    let final := (outcomes perform calls (newStore parent pfx)).2
    ∃ m', Allowed (MapStep (Settable π pfx)) calls
        (fun k => SortedMapStore.contents parent (pfx ++ k))
        (outcomes perform calls (newStore parent pfx)).1 m' ∧
      (∀ k, SortedMapStore.contents final.parent (pfx ++ k) = m' k) ∧
        ∀ x, ¬ pfx <+: x →
          SortedMapStore.contents final.parent x = SortedMapStore.contents parent x := by
  obtain ⟨m', hallowed, hshows⟩ :=
    (simulates_view hpfx (SortedMapStore.contents parent)).outcomes (fun _ _ => trivial)
      (shows_newStore parent pfx)
  refine ⟨m', hallowed, fun k => ?_, hshows.outside⟩
  rw [← hshows.view_eq, view, hshows.pfx_eq]

/-- Under a prefix that no key is past, a key is set and deleted and both directions are
traversed. -/
theorem behaves_as_view_of_last_bytes :
    ∃ calls : List PrefixCall, calls =
        [.set (some [1]) (some [5]), .traverse none none true, .has (some [1]),
          .delete (some [1]), .traverse (some []) (some [2]) false] ∧
      ([255, 255] : Bytes) ≠ [] ∧
      ∃ m, Allowed (MapStep (Settable DbAdapter [255, 255])) calls
          (fun k => DbAdapter.empty.lookup ([255, 255] ++ k))
          (outcomes perform calls (newStore DbAdapter.empty [255, 255])).1 m ∧
        ∀ x, ¬ [255, 255] <+: x →
          (outcomes perform calls (newStore DbAdapter.empty [255, 255])).2.parent.lookup x =
            DbAdapter.empty.lookup x := by
  have hpfx : ([255, 255] : Bytes) ≠ [] := by decide
  refine ⟨_, rfl, hpfx, ?_⟩
  obtain ⟨m, hallowed, -, houtside⟩ := behaves_as_view DbAdapter.empty hpfx
    [.set (some [1]) (some [5]), .traverse none none true, .has (some [1]),
      .delete (some [1]), .traverse (some []) (some [2]) false]
  exact ⟨m, hallowed, houtside⟩

end PrefixStore

end MelodiaStore
