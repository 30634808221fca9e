import Mathlib.Data.List.Lex
import MelodiaStore.Ordered

/-!
# Byte Strings, Panics and Key-Value Stores

The vocabulary of the store packages: byte slices with their `nil`, the panics the code
raises, the validity checks of `types/validity.go`, the `BasicKVStore` interface of
`types/store.go`, and the plain store the others are stacked on: `dbadapter.Store` over a
`MemDB` of cosmos-db.

The in-memory database is a third-party package. It is modelled by what its
documentation says: a map from non-empty keys to values whose iterators return the keys
of `[start, end)` in order (`MemDB.mem_iterator`, `MemDB.pairwise_iterator`).
-/

namespace MelodiaStore

/-! ### Byte slices -/

instance instLinearOrderUInt8 : LinearOrder UInt8 where
  le_refl := UInt8.le_refl
  le_trans _ _ _ := UInt8.le_trans
  le_antisymm _ _ := UInt8.le_antisymm
  le_total := UInt8.le_total
  lt_iff_le_not_ge a b := by
    simp only [UInt8.le_iff_toNat_le, UInt8.lt_iff_toNat_lt]
    omega
  toDecidableLE := inferInstance
  toDecidableEq := inferInstance

/-- A Go `string`, or the contents of a byte slice that is not `nil`. The order is that of
`bytes.Compare`. -/
abbrev Bytes := List UInt8

/-- A Go `[]byte`: `none` is `nil`, which differs from the empty slice `some []`. -/
abbrev Slice := Option Bytes

/-- `bytes.Equal`, for which `nil` and the empty slice are equal. -/
def bytesEqual (a b : Slice) : Bool := a.getD [] == b.getD []

variable {a b : Slice} {π : Type}

theorem bytesEqual_iff : bytesEqual a b = true ↔ a.getD [] = b.getD [] := by
  rw [bytesEqual, beq_iff_eq]

/-- Slices are equal for `bytes.Equal` when they are equal or are `nil` and empty. -/
theorem bytesEqual_cases (h : bytesEqual a b = true) :
    a = b ∨ (a = none ∧ b = some []) ∨ (a = some [] ∧ b = none) := by
  rw [bytesEqual_iff] at h
  cases a with
  | none =>
    cases b with
    | none => exact .inl rfl
    | some b =>
      obtain rfl : [] = b := h
      exact .inr (.inl ⟨rfl, rfl⟩)
  | some a =>
    cases b with
    | none =>
      obtain rfl : a = [] := h
      exact .inr (.inr ⟨rfl, rfl⟩)
    | some b =>
      obtain rfl : a = b := h
      exact .inl rfl

/-- A digit of `hex.EncodeToString`. -/
def hexDigit (n : UInt8) : UInt8 := if n < 10 then 0x30 + n else 0x57 + n

/-- `hex.EncodeToString`. -/
def encodeToString (data : Bytes) : Bytes :=
  data.flatMap fun b => [hexDigit (b / 16), hexDigit (b % 16)]

/-- A Go string constant. -/
def ascii (text : String) : Bytes := text.toList.map fun c => UInt8.ofNat c.toNat

/-! ### Panics -/

/-- The errors of `types/occ` that an abort carries. -/
inductive AbortError
  | readEstimate
  | nextAccountNumber
  deriving DecidableEq, Repr

/-- `occ.Abort`: the transaction a conflict depends on. -/
structure Abort where
  dependentTxIdx : ℕ
  err : AbortError
  deriving DecidableEq, Repr

/-- `occ.NewEstimateAbort`. -/
def newEstimateAbort (dependentTxIdx : ℕ) : Abort := ⟨dependentTxIdx, .readEstimate⟩

/-- The errors of cosmos-db's `MemDB`. -/
inductive DbError
  | keyEmpty
  | valueNil
  deriving DecidableEq, Repr

/-- What a Go panic carries. -/
inductive Panic
  /-- a text given to `panic` -/
  | text (message : String)
  /-- an `Abort` given to `panic` -/
  | abort (a : Abort)
  /-- an error of the database given to `panic` -/
  | db (e : DbError)
  /-- an error value made with `errors.New` -/
  | error (message : String)
  /-- an index outside a slice -/
  | indexOutOfRange
  /-- a method call on, or a type assertion of, a `nil` interface -/
  | nilInterface
  /-- not a panic of the code: the bound on the rounds of a modelled loop was too small -/
  | outOfFuel
  deriving DecidableEq, Repr

/-! ### Validity of keys and values -/

variable {key : Bytes} {value : Slice}

/-- `types.MaxKeyLength`. -/
def maxKeyLength : ℕ := (1 <<< 17) - 1

/-- `types.MaxValueLength`. -/
def maxValueLength : ℕ := (1 <<< 31) - 1

/-- The keys `AssertValidKey` lets pass. -/
def ValidKey (key : Bytes) : Prop := key ≠ [] ∧ key.length ≤ maxKeyLength

/-- The values `AssertValidValue` lets pass. -/
def ValidValue (value : Bytes) : Prop := value.length ≤ maxValueLength

instance (key : Bytes) : Decidable (ValidKey key) :=
  inferInstanceAs (Decidable (key ≠ [] ∧ key.length ≤ maxKeyLength))

instance (value : Bytes) : Decidable (ValidValue value) :=
  inferInstanceAs (Decidable (value.length ≤ maxValueLength))

/-- `types.AssertValidKey`; a `nil` key is the empty string here. -/
def assertValidKey (key : Bytes) : Except Panic Unit :=
  if key.length = 0 then .error (.text "key is nil or empty")
  else if key.length > maxKeyLength then .error (.text "key is too large")
  else .ok ()

/-- `types.AssertValidValue`. -/
def assertValidValue (value : Slice) : Except Panic Unit :=
  match value with
  | none => .error (.text "value is nil")
  | some v => if v.length > maxValueLength then .error (.text "value is too large") else .ok ()

theorem assertValidKey_eq_ok : assertValidKey key = .ok () ↔ ValidKey key := by
  unfold assertValidKey ValidKey
  split
  · next h => simp [List.length_eq_zero_iff.mp h]
  · next h =>
    split
    · next h' => simp [h']
    · next h' =>
      have hne : key ≠ [] := fun e => h (by rw [e, List.length_nil])
      simp only [true_iff]
      exact ⟨hne, by omega⟩

theorem validKey_of_assertValidKey (h : assertValidKey key = .ok ()) : ValidKey key :=
  assertValidKey_eq_ok.mp h

theorem assertValidValue_eq_ok :
    assertValidValue value = .ok () ↔ ∃ v, value = some v ∧ ValidValue v := by
  cases value with
  | none => simp [assertValidValue]
  | some v =>
    simp only [assertValidValue, ValidValue, Option.some.injEq, exists_eq_left']
    split
    · next h => simp [h]
    · next h => simpa using h

theorem valid_of_assertValidValue (h : assertValidValue value = .ok ()) (v : Bytes)
    (hv : value = some v) : ValidValue v := by
  obtain ⟨w, hw, hvalid⟩ := assertValidValue_eq_ok.mp h
  obtain rfl := Option.some.inj (hv.symm.trans hw)
  exact hvalid

/-- What the two checks of a `Set` let pass. -/
theorem valid_of_checks (h : (do assertValidKey key; assertValidValue value) = .ok ()) :
    ValidKey key ∧ ∃ v, value = some v ∧ ValidValue v := by
  obtain ⟨_, hkey, hvalue⟩ := except_bind_eq_ok.mp h
  exact ⟨validKey_of_assertValidKey hkey, assertValidValue_eq_ok.mp hvalue⟩

/-! ### Key-value stores -/

/-- `dbm.IsKeyInDomain`: `start` is inclusive, `end` exclusive, and `nil` is no bound. -/
def isKeyInDomain (key : Bytes) (start stop : Slice) : Bool :=
  decide (start.getD [] ≤ key) &&
    match stop with
    | none => true
    | some stop => decide (key < stop)

/-- A range is half-open. -/
theorem isKeyInDomain_iff {start stop : Slice} :
    isKeyInDomain key start stop = true ↔
      start.getD [] ≤ key ∧ ∀ e, stop = some e → key < e := by
  cases stop with
  | none => simp [isKeyInDomain]
  | some e => simp [isKeyInDomain]

/-- `types.BasicKVStore`. -/
class BasicKVStore (π : Type) where
  get : π → Bytes → Except Panic Slice
  set : π → Bytes → Slice → Except Panic π
  delete : π → Bytes → Except Panic π

/-- The iterators `types.KVStore` adds; an iterator is the list of entries it will show. -/
class KVStore (π : Type) extends BasicKVStore π where
  iterator : π → Slice → Slice → Bool → Except Panic (List (Bytes × Bytes))

/-- cosmos-db's `MemDB`: a sorted map that refuses empty keys. -/
structure MemDB where
  entries : GoMap Bytes Bytes
  ne_nil : ∀ k ∈ entries, k ≠ []

namespace MemDB

/-- `dbm.NewMemDB`. -/
def new : MemDB := ⟨∅, fun k hk => absurd hk (AList.notMem_empty k)⟩

/-- `MemDB.Get`. -/
def get (db : MemDB) (key : Bytes) : Except DbError Slice :=
  if key = [] then .error .keyEmpty else .ok (db.entries.lookup key)

/-- `MemDB.Has`. -/
def has (db : MemDB) (key : Bytes) : Except DbError Bool :=
  if key = [] then .error .keyEmpty else .ok (db.entries.lookup key).isSome

/-- `MemDB.Set`. -/
def set (db : MemDB) (key : Bytes) (value : Slice) : Except DbError MemDB :=
  if hk : key = [] then .error .keyEmpty
  else
    match value with
    | none => .error .valueNil
    | some v => .ok ⟨db.entries.insert key v, fun k h => by
        rcases (AList.mem_insert db.entries).mp h with rfl | h
        · exact hk
        · exact db.ne_nil k h⟩

/-- `MemDB.Delete`. -/
def delete (db : MemDB) (key : Bytes) : Except DbError MemDB :=
  if key = [] then .error .keyEmpty
  else .ok ⟨db.entries.erase key, fun k h => db.ne_nil k (AList.mem_erase.mp h).2⟩

/-- `MemDB.Iterator` and `MemDB.ReverseIterator`; bounds that are empty but not `nil` are
refused. -/
def iterator (db : MemDB) (start stop : Slice) (ascending : Bool) :
    Except DbError (List (Bytes × Bytes)) :=
  if start = some [] ∨ stop = some [] then .error .keyEmpty
  else .ok (traverse db.entries (fun k => isKeyInDomain k start stop) ascending)

variable {db : MemDB} {start stop : Slice} {ascending : Bool}

/-- An iterator is made exactly for bounds that are `nil` or non-empty. -/
theorem iterator_eq_ok {l : List (Bytes × Bytes)} : db.iterator start stop ascending = .ok l ↔
      start ≠ some [] ∧ stop ≠ some [] ∧
        l = traverse db.entries (fun k => isKeyInDomain k start stop) ascending := by
  unfold iterator
  split
  · next h =>
    simp only [reduceCtorEq, false_iff]
    rintro ⟨h₁, h₂, -⟩
    exact h.elim h₁ h₂
  · next h =>
    rw [not_or] at h
    rw [Except.ok.injEq]
    constructor
    · rintro rfl
      exact ⟨h.1, h.2, rfl⟩
    · rintro ⟨-, -, rfl⟩
      rfl

/-- The keys an iterator meets. -/
def keysIn (db : MemDB) (start stop : Slice) (ascending : Bool) : List Bytes :=
  (traverse db.entries (fun k => isKeyInDomain k start stop) ascending).map Prod.fst

/-- The keys of a range. -/
theorem mem_keysIn {k : Bytes} :
    k ∈ db.keysIn start stop ascending ↔ isKeyInDomain k start stop = true ∧ k ∈ db.entries := by
  rw [keysIn, ← AList.lookup_isSome]
  exact mem_map_fst_iff (V := Bytes) (f := fun k => db.entries.lookup k)
    (fun _ _ => mem_traverse.trans (and_congr_right' mem_entries_iff)) k

/-- The keys come in order. -/
theorem pairwise_keysIn (db : MemDB) (start stop : Slice) (ascending : Bool) :
    (db.keysIn start stop ascending).Pairwise (Before ascending) :=
  List.pairwise_map.mpr (pairwise_traverse _ _ _)

end MemDB

/-- What the code uses of a database of cosmos-db beyond `MemDB`, and what is assumed of it. -/
class Database (δ : Type) where
  lookup : δ → Bytes → Slice
  get : δ → Bytes → Except DbError Slice
  set : δ → Bytes → Slice → Except DbError δ
  get_eq : ∀ db key, key ≠ [] → get db key = .ok (lookup db key)
  set_eq : ∀ db key value, key ≠ [] → ∃ db', set db key (some value) = .ok db' ∧
    ∀ k, lookup db' k = if k = key then some value else lookup db k

instance instDatabaseMemDB : Database MemDB where
  lookup db := db.entries.lookup
  get := MemDB.get
  set := MemDB.set
  get_eq _ _ h := if_neg h
  set_eq _ key value h := ⟨_, dif_neg h, fun k => lookup_insert_ite _ key k value⟩

/-- `dbadapter.Store`, a database as a `KVStore`. Every write goes through
`AssertValidKey`, so the keys it holds are valid. -/
structure DbAdapter where
  db : MemDB
  valid : ∀ k ∈ db.entries, ValidKey k

namespace DbAdapter

variable {store : DbAdapter} {key : Bytes} {start stop : Slice} {l : List (Bytes × Bytes)}
  {v : Bytes} {ascending : Bool}

/-- The value of a key, `nil` when it is absent. -/
def lookup (store : DbAdapter) (key : Bytes) : Slice := store.db.entries.lookup key

/-- A store with no entry. -/
def empty : DbAdapter := ⟨.new, fun k hk => absurd hk (AList.notMem_empty k)⟩

/-- `dbadapter.Store.Get`. -/
def get (store : DbAdapter) (key : Bytes) : Except Panic Slice :=
  (store.db.get key).mapError .db

/-- `dbadapter.Store.Has`. -/
def has (store : DbAdapter) (key : Bytes) : Except Panic Bool :=
  (store.db.has key).mapError .db

/-- The store with a valid key set to `v`. -/
def insert (store : DbAdapter) (key : Bytes) (hk : ValidKey key) (v : Bytes) : DbAdapter where
  db := ⟨store.db.entries.insert key v, fun k h => by
    rcases (AList.mem_insert _).mp h with rfl | h
    · exact hk.1
    · exact store.db.ne_nil k h⟩
  valid k h := by
    rcases (AList.mem_insert _).mp h with rfl | h
    · exact hk
    · exact store.valid k h

/-- The store without `key`. -/
def erase (store : DbAdapter) (key : Bytes) : DbAdapter where
  db := ⟨store.db.entries.erase key, fun k h => store.db.ne_nil k (AList.mem_erase.mp h).2⟩
  valid k h := store.valid k (AList.mem_erase.mp h).2

/-- `dbadapter.Store.Set`. -/
def set (store : DbAdapter) (key : Bytes) (value : Slice) : Except Panic DbAdapter :=
  match hk : assertValidKey key with
  | .error e => .error e
  | .ok () =>
    match value, assertValidValue value with
    | _, .error e => .error e
    | none, .ok () => .error (.db .valueNil)
    | some v, .ok () => .ok (store.insert key (validKey_of_assertValidKey hk) v)

/-- `dbadapter.Store.Delete`. -/
def delete (store : DbAdapter) (key : Bytes) : Except Panic DbAdapter :=
  if key = [] then .error (.db .keyEmpty) else .ok (store.erase key)

/-- `dbadapter.Store.Iterator` and `dbadapter.Store.ReverseIterator`. -/
def iterator (store : DbAdapter) (start stop : Slice) (ascending : Bool) :
    Except Panic (List (Bytes × Bytes)) :=
  (store.db.iterator start stop ascending).mapError .db

instance : KVStore DbAdapter where
  get := get
  set := set
  delete := delete
  iterator := iterator

theorem lookup_insert (store : DbAdapter) (key : Bytes) (hk : ValidKey key) (v : Bytes)
    (k : Bytes) : (store.insert key hk v).lookup k = if k = key then some v else store.lookup k :=
  lookup_insert_ite store.db.entries key k v

theorem lookup_erase (store : DbAdapter) (key k : Bytes) :
    (store.erase key).lookup k = if k = key then none else store.lookup k :=
  lookup_erase_ite store.db.entries key k

/-- A key that is present is valid. -/
theorem valid_of_lookup (h : store.lookup key = some v) : ValidKey key :=
  store.valid key (mem_iff_exists_lookup.mpr ⟨v, h⟩)

theorem get_of_ne_nil (h : key ≠ []) : store.get key = .ok (store.lookup key) := by
  rw [get, MemDB.get, if_neg h]
  rfl

theorem has_of_ne_nil (h : key ≠ []) : store.has key = .ok (store.lookup key).isSome := by
  rw [has, MemDB.has, if_neg h]
  rfl

/-- What `Set` stores. -/
theorem set_of_valid (hk : ValidKey key) (hv : ValidValue v) :
    store.set key (some v) = .ok (store.insert key hk v) := by
  unfold set
  split
  · next e he => rw [assertValidKey_eq_ok.mpr hk] at he; cases he
  · rw [assertValidValue_eq_ok.mpr ⟨v, rfl, hv⟩]

theorem set_of_not_valid {value : Slice} (h : ¬ ValidKey key) :
    ∃ e, store.set key value = .error e := by
  unfold set
  split
  · next e he => exact ⟨e, rfl⟩
  · next hk => exact absurd (validKey_of_assertValidKey hk) h

theorem delete_of_ne_nil (h : key ≠ []) : store.delete key = .ok (store.erase key) :=
  if_neg h

section

variable (h : store.iterator start stop ascending = .ok l)
include h

/-- The adapter passes the iterator of its database on. -/
theorem eq_traverse_of_iterator :
    l = traverse store.db.entries (fun k => isKeyInDomain k start stop) ascending := by
  rw [iterator] at h
  cases hi : store.db.iterator start stop ascending with
  | error e =>
    rw [hi] at h
    cases h
  | ok l' =>
    rw [hi] at h
    obtain rfl : l' = l := Except.ok.inj h
    exact (MemDB.iterator_eq_ok.mp hi).2.2

/-- What an iterator shows: made for bounds that are `nil` or non-empty, it meets the
entries of the range. -/
theorem mem_iterator {k : Bytes} :
    (k, v) ∈ l ↔ isKeyInDomain k start stop = true ∧ store.lookup k = some v := by
  rw [eq_traverse_of_iterator h, mem_traverse, mem_entries_iff, lookup]

/-- An iterator meets each key once, in its order. -/
theorem pairwise_iterator : l.Pairwise fun a b => Before ascending a.1 b.1 := by
  rw [eq_traverse_of_iterator h]
  exact pairwise_traverse _ _ _

end

/-- Bounds that are `nil` or non-empty are accepted. -/
theorem exists_iterator (store : DbAdapter) (ascending : Bool) (hstart : start ≠ some [])
    (hstop : stop ≠ some []) : ∃ l, store.iterator start stop ascending = .ok l := by
  refine ⟨traverse store.db.entries (fun k => isKeyInDomain k start stop) ascending, ?_⟩
  rw [iterator, MemDB.iterator_eq_ok.mpr ⟨hstart, hstop, rfl⟩]
  rfl

end DbAdapter

/-- **The contract of reads and writes**: a store behaves as a map `contents` from valid keys
to values, and reads and writes of valid keys and values return. -/
class LawfulBasicKVStore (π : Type) extends BasicKVStore π where
  contents : π → Bytes → Slice
  valid_of_contents : ∀ p k v, contents p k = some v → ValidKey k
  get_eq : ∀ p k, ValidKey k → get p k = .ok (contents p k)
  set_eq : ∀ p k v, ValidKey k → ValidValue v → ∃ p', set p k (some v) = .ok p' ∧
    ∀ k', contents p' k' = if k' = k then some v else contents p k'
  delete_eq : ∀ p k, ValidKey k → ∃ p', delete p k = .ok p' ∧
    ∀ k', contents p' k' = if k' = k then none else contents p k'

/-- **The contract of a parent store**: moreover an iterator over bounds that are `nil` or
non-empty meets the entries of the range once, in its order. -/
class LawfulKVStore (π : Type) extends LawfulBasicKVStore π, KVStore π where
  exists_iterator : ∀ p start stop ascending, start ≠ some [] → stop ≠ some [] →
    ∃ l, iterator p start stop ascending = .ok l
  mem_iterator : ∀ p start stop ascending l, iterator p start stop ascending = .ok l →
    ∀ k v, (k, v) ∈ l ↔ isKeyInDomain k start stop = true ∧ contents p k = some v
  pairwise_iterator : ∀ p start stop ascending l, iterator p start stop ascending = .ok l →
    l.Pairwise fun a b => Before ascending a.1 b.1

instance : LawfulKVStore DbAdapter where
  contents := DbAdapter.lookup
  valid_of_contents _ _ _ := DbAdapter.valid_of_lookup
  get_eq _ _ hk := DbAdapter.get_of_ne_nil hk.1
  set_eq p k v hk hv := ⟨p.insert k hk v, DbAdapter.set_of_valid hk hv, p.lookup_insert k hk v⟩
  delete_eq p k hk := ⟨p.erase k, DbAdapter.delete_of_ne_nil hk.1, p.lookup_erase k⟩
  exists_iterator p _ _ ascending := p.exists_iterator ascending
  mem_iterator _ _ _ _ _ h _ _ := DbAdapter.mem_iterator h
  pairwise_iterator _ _ _ _ _ h := DbAdapter.pairwise_iterator h

/-! ### Writing to a store -/

/-- Run an operation of a store. -/
def updateStore {π : Type} (f : π → Except Panic π) : EStateM Panic π PUnit := fun p =>
  match f p with
  | .ok p' => .ok ⟨⟩ p'
  | .error e => .error e p

theorem run_updateStore {f : π → Except Panic π} {p p' : π} (h : f p = .ok p') :
    (updateStore f).run p = .ok ⟨⟩ p' := by
  simp only [updateStore, EStateM.run, h]

/-- Write a value to a store, where `nil` is a deletion. -/
def writeValue {π : Type} [BasicKVStore π] (key : Bytes) (value : Slice) : EStateM Panic π PUnit :=
  match value with
  | none => updateStore (BasicKVStore.delete · key)
  | some v => updateStore (BasicKVStore.set · key (some v))

/-- A valid value of a valid key is what the store holds afterwards. -/
theorem run_writeValue [LawfulBasicKVStore π] (hkey : ValidKey key)
    (hvalue : ∀ v, value = some v → ValidValue v) (p : π) :
    ∃ p', (writeValue key value).run p = .ok ⟨⟩ p' ∧
      ∀ k, LawfulBasicKVStore.contents p' k =
        if k = key then value else LawfulBasicKVStore.contents p k := by
  cases value with
  | none =>
    obtain ⟨p', hrun, hcontents⟩ := LawfulBasicKVStore.delete_eq p key hkey
    exact ⟨p', run_updateStore hrun, hcontents⟩
  | some v =>
    obtain ⟨p', hrun, hcontents⟩ := LawfulBasicKVStore.set_eq p key v hkey (hvalue v rfl)
    exact ⟨p', run_updateStore hrun, hcontents⟩

end MelodiaStore
