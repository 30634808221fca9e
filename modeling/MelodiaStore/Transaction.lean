import MelodiaStore.Readset
import MelodiaStore.View

/-!
# Transactions and What They Read

A whole execution of a transaction: calls of `Get`, `Has`, `Set` and `Delete`, the creation
of iterators and the calls of their methods, in any order. Other transactions may change the
store below at any time, so every call is made against a state of its own.

A `Transaction` keeps, next to the version indexed store and the open iterators, the values
it has obtained from outside: what `Get` or the `Value` of an iterator has returned for a
key that the transaction had not written itself.

## Main results

* `Transaction.nonrepeatable_read_caught`: a transaction that has obtained two different
  values for a key fails the check of its read set in every state of the store.
-/

namespace MelodiaStore

/-! ### Executions -/

/-- The calls a transaction makes. An iterator is named by its position among the iterators
created so far. -/
inductive Call
  | get (key : Bytes)
  | has (key : Bytes)
  | set (key : Bytes) (value : Slice)
  | delete (key : Bytes)
  | iterator (start stop : Slice) (ascending : Bool)
  | valid (i : ℕ)
  | key (i : ℕ)
  | value (i : ℕ)
  | next (i : ℕ)

/-- A transaction in execution, with the values it has obtained from outside. -/
structure Transaction where
  store : VersionIndexedStore
  iterators : List TrackedIterator
  obtained : List (Bytes × Slice)

/-- The key an iterator is on, if its value comes from outside: from the iterator of the
parent store, or through `Get` for a key that is not in the write set. -/
def MergeIterator.outsideKey (it : MergeIterator) (writeset : WriteSet) : Option Bytes :=
  match it.side with
  | .parent => it.parent.head?.map Prod.fst
  | .cache | .both => it.cache.head?.filter (· ∉ writeset)

namespace Transaction

/-- A transaction over a new version indexed store. -/
def new (index : ℕ) (incarnation : ℤ) (abortChannel : Channel Abort) (totalTask : ℕ) :
    Transaction :=
  ⟨newVersionIndexedStore index incarnation abortChannel totalTask, [], []⟩

/-- Note the value of a key, if there is one, as obtained. -/
def note (t : Transaction) (key : Option Bytes) (value : Slice) : Transaction :=
  { t with obtained := key.elim t.obtained fun k => (k, value) :: t.obtained }

variable {π : Type} [KVStore π] {t t' : Transaction} {s : Store π}

/-- Run a method of the version indexed store against a state of the store below; there is
no result if it panics. -/
def against (t : Transaction) (s : Store π) {α : Type} (x : EStateM Panic (Mvkv (Store π)) α) :
    Option (α × Transaction) :=
  match x.run ⟨t.store, s⟩ with
  | .ok a m => some (a, { t with store := m.store })
  | .error _ _ => none

/-- Call a method of an iterator. -/
def onIterator (t : Transaction) (s : Store π) (i : ℕ) {α : Type}
    (method : TrackedIterator → EStateM Panic (Mvkv (Store π)) (α × TrackedIterator)) :
    Option ((α × TrackedIterator) × Transaction) := do
  let it ← t.iterators[i]?
  let (r, t) ← t.against s (method it)
  some (r, { t with iterators := t.iterators.set i r.2 })

/-- One call, against a state of the store below. A panic ends the execution. -/
def perform (t : Transaction) (s : Store π) : Call → Option Transaction
  | .get key => do
    let (value, t') ← t.against s (VersionIndexedStore.get key)
    some (t'.note (if key ∈ t.store.writeset then none else some key) value)
  | .has key => do
    let (_, t) ← t.against s (VersionIndexedStore.has key)
    some t
  | .set key value => do
    let (_, t) ← t.against s (VersionIndexedStore.set key value)
    some t
  | .delete key => do
    let (_, t) ← t.against s (VersionIndexedStore.delete key)
    some t
  | .iterator start stop ascending => do
    let (it, t) ← t.against s (VersionIndexedStore.iterator start stop ascending)
    some { t with iterators := t.iterators ++ [it] }
  | .valid i => do
    let (_, t) ← t.onIterator s i TrackedIterator.valid
    some t
  | .key i => do
    let (_, t) ← t.onIterator s i TrackedIterator.key
    some t
  | .value i => do
    let ((value, it), t) ← t.onIterator s i TrackedIterator.value
    some (t.note (it.iter.outsideKey t.store.writeset) value)
  | .next i => do
    let (_, t) ← t.onIterator s i fun it => do pure ((), ← it.next)
    some t

/-- An execution: each call comes with the state of the store below at that moment. -/
def run (t : Transaction) (calls : List (Store π × Call)) : Option Transaction :=
  calls.foldlM (fun t call => t.perform call.1 call.2) t

section

variable {α β : Type} {b : β}

omit [KVStore π] in
theorem against_bind_eq_some {x : EStateM Panic (Mvkv (Store π)) α}
    {f : α × Transaction → Option β} :
    (t.against s x).bind f = some b ↔
      ∃ a m, x.run ⟨t.store, s⟩ = .ok a m ∧ f (a, { t with store := m.store }) = some b := by
  unfold against
  cases x.run ⟨t.store, s⟩ with
  | ok a m => simp
  | error e m => simp

omit [KVStore π] in
theorem onIterator_bind_eq_some {i : ℕ}
    {method : TrackedIterator → EStateM Panic (Mvkv (Store π)) (α × TrackedIterator)}
    {f : (α × TrackedIterator) × Transaction → Option β} :
    (t.onIterator s i method).bind f = some b ↔
      ∃ it r m, t.iterators[i]? = some it ∧ (method it).run ⟨t.store, s⟩ = .ok r m ∧
        f (r, { t with store := m.store, iterators := t.iterators.set i r.2 }) = some b := by
  unfold onIterator
  cases t.iterators[i]? with
  | none => simp
  | some it => simp [Option.bind_assoc, against_bind_eq_some]

end

/-- What a call that does not panic has done: which method was run, on what, and what the
transaction is afterwards. -/
inductive Performed (t : Transaction) (s : Store π) : Call → Transaction → Prop
  | get {key : Bytes} {value : Slice} {m : Mvkv (Store π)}
      (hrun : (VersionIndexedStore.get key).run ⟨t.store, s⟩ = .ok value m) :
      Performed t s (.get key) (note { t with store := m.store }
        (if key ∈ t.store.writeset then none else some key) value)
  | has {key : Bytes} {value : Slice} {m : Mvkv (Store π)}
      (hrun : (VersionIndexedStore.get key).run ⟨t.store, s⟩ = .ok value m) :
      Performed t s (.has key) { t with store := m.store }
  | set {key : Bytes} {value : Slice} {m : Mvkv (Store π)}
      (hrun : (VersionIndexedStore.set key value).run ⟨t.store, s⟩ = .ok ⟨⟩ m) :
      Performed t s (.set key value) { t with store := m.store }
  | delete {key : Bytes} {m : Mvkv (Store π)}
      (hrun : (VersionIndexedStore.set key none).run ⟨t.store, s⟩ = .ok ⟨⟩ m) :
      Performed t s (.delete key) { t with store := m.store }
  | iterator {start stop : Slice} {ascending : Bool} {it : TrackedIterator} {m : Mvkv (Store π)}
      (hrun : (VersionIndexedStore.iterator start stop ascending).run ⟨t.store, s⟩ = .ok it m) :
      Performed t s (.iterator start stop ascending)
        { t with store := m.store, iterators := t.iterators ++ [it] }
  | valid {i : ℕ} {it : TrackedIterator} {r : Bool × TrackedIterator} {m : Mvkv (Store π)}
      (hit : t.iterators[i]? = some it) (hrun : it.valid.run ⟨t.store, s⟩ = .ok r m) :
      Performed t s (.valid i) { t with store := m.store, iterators := t.iterators.set i r.2 }
  | key {i : ℕ} {it : TrackedIterator} {r : Bytes × TrackedIterator} {m : Mvkv (Store π)}
      (hit : t.iterators[i]? = some it) (hrun : it.key.run ⟨t.store, s⟩ = .ok r m) :
      Performed t s (.key i) { t with store := m.store, iterators := t.iterators.set i r.2 }
  | value {i : ℕ} {it : TrackedIterator} {r : Slice × TrackedIterator} {m : Mvkv (Store π)}
      (hit : t.iterators[i]? = some it) (hrun : it.value.run ⟨t.store, s⟩ = .ok r m) :
      Performed t s (.value i)
        (note { t with store := m.store, iterators := t.iterators.set i r.2 }
          (r.2.iter.outsideKey m.store.writeset) r.1)
  | next {i : ℕ} {it it' : TrackedIterator} {m : Mvkv (Store π)}
      (hit : t.iterators[i]? = some it) (hrun : it.next.run ⟨t.store, s⟩ = .ok it' m) :
      Performed t s (.next i) { t with store := m.store, iterators := t.iterators.set i it' }

/-- **What a call can do**, for all the calls at once. -/
theorem performed_of_perform {call : Call} (h : t.perform s call = some t') :
    t.Performed s call t' := by
  cases call with
  | get key =>
    obtain ⟨value, m, hget, heq⟩ := against_bind_eq_some.mp h
    cases heq
    exact .get hget
  | has key =>
    obtain ⟨found, m, hhas, heq⟩ := against_bind_eq_some.mp h
    obtain ⟨value, m₁, hget, hpure⟩ := run_bind_eq_ok.mp hhas
    cases heq
    cases hpure
    exact .has hget
  | set key value =>
    obtain ⟨_, m, hset, heq⟩ := against_bind_eq_some.mp h
    cases heq
    exact .set hset
  | delete key =>
    obtain ⟨_, m, hset, heq⟩ := against_bind_eq_some.mp h
    cases heq
    exact .delete hset
  | iterator start stop ascending =>
    obtain ⟨it, m, hit, heq⟩ := against_bind_eq_some.mp h
    cases heq
    exact .iterator hit
  | valid i =>
    obtain ⟨it, r, m, hit, hvalid, heq⟩ := onIterator_bind_eq_some.mp h
    cases heq
    exact .valid hit hvalid
  | key i =>
    obtain ⟨it, r, m, hit, hkey, heq⟩ := onIterator_bind_eq_some.mp h
    cases heq
    exact .key hit hkey
  | value i =>
    obtain ⟨it, r, m, hit, hvalue, heq⟩ := onIterator_bind_eq_some.mp h
    cases heq
    exact .value hit hvalue
  | next i =>
    obtain ⟨it, r, m, hit, hmethod, heq⟩ := onIterator_bind_eq_some.mp h
    obtain ⟨it', m₁, hnext, hpure⟩ := run_bind_eq_ok.mp hmethod
    cases heq
    cases hpure
    exact .next hit hnext

end Transaction

/-! ### What a read set remembers -/

/-- A read set holds a value for a key, up to `bytes.Equal`. -/
def Remembers (readset : ReadSet) (key : Bytes) (value : Slice) : Prop :=
  ∃ values, readset.lookup key = some values ∧ ∃ w ∈ values, bytesEqual value w = true

theorem mem_addValue_of_mem {values : List Slice} {value w : Slice} (h : w ∈ values) :
    w ∈ addValue values value := by
  unfold addValue
  split
  · exact h
  · exact List.mem_append_left _ h

theorem exists_mem_addValue (values : List Slice) (value : Slice) :
    ∃ w ∈ addValue values value, bytesEqual value w = true := by
  unfold addValue
  split
  · next h => exact List.any_eq_true.mp h
  · exact ⟨value, by simp, bytesEqual_iff.mpr rfl⟩

/-- A value that was added is remembered. -/
theorem remembers_addRead (readset : ReadSet) (key : Bytes) (value : Slice) :
    Remembers (addRead readset key value) key value :=
  ⟨_, AList.lookup_insert _, exists_mem_addValue _ value⟩

/-- What is remembered stays so when values are added. -/
theorem Remembers.addRead {readset : ReadSet} {key : Bytes} {value : Slice}
    (h : Remembers readset key value) (key' : Bytes) (value' : Slice) :
    Remembers (addRead readset key' value') key value := by
  obtain ⟨values, hvalues, w, hw, heq⟩ := h
  unfold MelodiaStore.addRead
  by_cases hk : key = key'
  · subst hk
    rw [hvalues, Option.getD_some]
    exact ⟨_, AList.lookup_insert _, w, mem_addValue_of_mem hw, heq⟩
  · exact ⟨values, (AList.lookup_insert_ne hk).trans hvalues, w, hw, heq⟩

section Sound

variable {π : Type} [KVStore π]

/-- The index and the write set of a version indexed store, and some of what its read set
remembers. -/
structure Remembering (index : ℕ) (writeset : WriteSet) (obtained : List (Bytes × Slice))
    (m : Mvkv (Store π)) : Prop where
  index_eq : m.store.transactionIndex = index
  writeset_eq : m.store.writeset = writeset
  remembers : ∀ k v, (k, v) ∈ obtained → Remembers m.store.readset k v

variable {index : ℕ} {writeset : WriteSet} {obtained : List (Bytes × Slice)} {m : Mvkv (Store π)}

omit [KVStore π] in
theorem Remembering.addRead (h : Remembering index writeset obtained m) (key : Bytes)
    (value : Slice) :
    Remembering index writeset obtained { m with store := m.store.withRead key value } :=
  ⟨h.index_eq, h.writeset_eq, fun k v hkv => (h.remembers k v hkv).addRead key value⟩

/-- **`Get` remembers what it returns from outside**, and forgets nothing. -/
theorem ensures_get (key : Bytes) :
    Ensures (Remembering index writeset obtained) (VersionIndexedStore.get key)
      fun value (m : Mvkv (Store π)) => Remembering index writeset obtained m ∧
        (key ∉ writeset → Remembers m.store.readset key value) := by
  rintro ⟨store, s⟩ value ⟨store', s'⟩ h hrun
  obtain ⟨-, rfl, ⟨hw, rfl⟩ | ⟨-, ⟨values, hr⟩, rfl⟩ | ⟨-, -, -, rfl⟩⟩ := run_get_eq_ok.mp hrun
  · refine ⟨h, fun hkey => absurd ?_ hkey⟩
    rw [← h.writeset_eq]
    exact mem_iff_exists_lookup.mpr ⟨value, hw⟩
  · exact ⟨h, fun _ => ⟨_, hr, value, List.mem_cons_self, bytesEqual_iff.mpr rfl⟩⟩
  · exact ⟨h.addRead key value, fun _ => remembers_addRead _ key value⟩

omit [KVStore π] in
/-- Adding a value to the read set remembers it, and forgets nothing. -/
theorem ensures_updateReadSet (key : Bytes) (value : Slice) :
    Ensures (Remembering index writeset obtained) (VersionIndexedStore.updateReadSet key value)
      fun _ (m : Mvkv (Store π)) => Remembering index writeset obtained m ∧
        Remembers m.store.readset key value := by
  intro m a m' h hrun
  cases hrun
  exact ⟨h.addRead key value, remembers_addRead _ key value⟩

/-- The callbacks remember what they read. -/
theorem keeps_remembering :
    MergeIterator.Keeps (VersionIndexedStore.callbacks : Callbacks (Mvkv (Store π)))
      (Remembering index writeset obtained) where
  value k := (ensures_get k).imp fun _ _ h => h.1
  updateReadSet k v := (ensures_updateReadSet k (some v)).imp fun _ _ h => h.1

omit [KVStore π] in
theorem Remembering.withIterateset (h : Remembering index writeset obtained m)
    (iterateset : Iterateset) : Remembering index writeset obtained
      { m with store := { m.store with iterateset := iterateset } } :=
  ⟨h.index_eq, h.writeset_eq, h.remembers⟩

/-- **The `Value` of an iterator remembers what it returns from outside.** -/
theorem ensures_iterator_value (it : TrackedIterator) :
    Ensures (Remembering index writeset obtained) it.value
      fun r (m : Mvkv (Store π)) => Remembering index writeset obtained m ∧
        ∀ k, r.2.iter.outsideKey writeset = some k → Remembers m.store.readset k r.1 := by
  refine (TrackedIterator.ensures_value keeps_remembering (Q := fun iter value m =>
    Remembering index writeset obtained m ∧
      ∀ k, iter.outsideKey writeset = some k → Remembers m.store.readset k value)
    (fun iter v m iterateset h => ⟨h.1.withIterateset iterateset, h.2⟩)
    (fun iter e hside he => ?_) (fun iter key hside hkey => ?_) it).imp fun _ _ h => h.2
  · refine (ensures_updateReadSet e.1 (some e.2)).imp fun _ m h => ⟨h.1, fun k hk => ?_⟩
    obtain ⟨e', he', rfl⟩ : ∃ e', iter.parent.head? = some e' ∧ e'.1 = k := by
      simpa only [MergeIterator.outsideKey, hside, Option.map_eq_some_iff] using hk
    rw [MergeIterator.parentEntry, he'] at he
    obtain rfl := Except.ok.inj he
    exact h.2
  · refine (ensures_get key).imp fun _ m h => ⟨h.1, fun k hk => ?_⟩
    have hk : iter.cache.head?.filter (· ∉ writeset) = some k := by
      cases hs : iter.side with
      | parent => exact absurd hs hside
      | cache | both => simpa only [MergeIterator.outsideKey, hs] using hk
    obtain ⟨hhead, hnotin⟩ := Option.filter_eq_some_iff.mp hk
    rw [MergeIterator.cacheKey, hhead] at hkey
    obtain rfl := Except.ok.inj hkey
    exact h.2 (of_decide_eq_true hnotin)

namespace Transaction

variable {t t' : Transaction}

/-- What a transaction has obtained from outside is remembered by its read set. -/
structure Sound (index : ℕ) (t : Transaction) : Prop where
  index_eq : t.store.transactionIndex = index
  remembers : ∀ k v, (k, v) ∈ t.obtained → Remembers t.store.readset k v

omit [KVStore π] in
/-- What is remembered is sound. -/
theorem sound_of_remembering {m : Mvkv (Store π)} (h : Remembering index writeset t.obtained m) :
    Sound index { t with store := m.store } :=
  ⟨h.index_eq, h.remembers⟩

/-- A note keeps the transaction sound. -/
theorem Sound.note (h : Sound index t) {key : Option Bytes} {value : Slice}
    (hkey : ∀ k, key = some k → Remembers t.store.readset k value) :
    Sound index (t.note key value) := by
  cases key with
  | none => exact h
  | some key =>
    refine ⟨h.index_eq, fun k v hkv => ?_⟩
    rcases List.mem_cons.mp hkv with heq | hkv
    · obtain ⟨rfl, rfl⟩ := Prod.mk.inj heq
      exact hkey k rfl
    · exact h.remembers k v hkv

/-- **The step lemma.** No call forgets what was obtained, and what it obtains from outside
is remembered. -/
theorem Sound.perform {s : Store π} {call : Call} (h : Sound index t)
    (hrun : t.perform s call = some t') : Sound index t' := by
  have hiter : ∀ {m : Mvkv (Store π)} (iterateset : Iterateset),
      Remembering index t.store.writeset t.obtained m → _ :=
    fun iterateset hm => Remembering.withIterateset hm iterateset
  have hstart : Remembering index t.store.writeset t.obtained ⟨t.store, s⟩ :=
    ⟨h.index_eq, rfl, h.remembers⟩
  cases performed_of_perform hrun with
  | @get key value m hget =>
    obtain ⟨hm, hkey⟩ := ensures_get key hstart hget
    refine (sound_of_remembering hm).note fun k hk => ?_
    split at hk
    · cases hk
    · next hnotin =>
      obtain rfl := Option.some.inj hk
      exact hkey hnotin
  | has hget => exact sound_of_remembering (ensures_get _ hstart hget).1
  | set hset | delete hset =>
    obtain ⟨-, rfl⟩ := run_set_eq_ok.mp hset
    exact ⟨h.index_eq, h.remembers⟩
  | iterator hit =>
    obtain ⟨_, _, -, -, -, -, rfl⟩ := run_iterator_eq_ok.mp hit
    exact ⟨h.index_eq, h.remembers⟩
  | @valid i it r m _ hvalid =>
    obtain ⟨-, hm⟩ := it.ensures_valid keeps_remembering (fun _ => hiter) hstart hvalid
    exact ⟨hm.index_eq, hm.remembers⟩
  | @key i it r m _ hkey =>
    obtain ⟨-, hm⟩ := it.ensures_key keeps_remembering (fun _ => hiter) hstart hkey
    exact ⟨hm.index_eq, hm.remembers⟩
  | @value i it r m _ hvalue =>
    obtain ⟨hm, hkey⟩ := ensures_iterator_value it hstart hvalue
    refine Sound.note ⟨hm.index_eq, hm.remembers⟩ fun k hk => hkey k ?_
    rwa [← hm.writeset_eq]
  | @next i it it' m _ hnext =>
    obtain ⟨-, hm⟩ := it.ensures_next keeps_remembering (fun _ => hiter) hstart hnext
    exact ⟨hm.index_eq, hm.remembers⟩

/-- **The run lemma**, by induction on the calls. -/
theorem Sound.run {calls : List (Store π × Call)} (h : Sound index t) (hrun : t.run calls = some t')
    : Sound index t' := by
  induction calls generalizing t with
  | nil =>
    obtain rfl := Option.some.inj hrun
    exact h
  | cons call calls ih =>
    obtain ⟨t₁, hcall, hrest⟩ := Option.bind_eq_some_iff.mp hrun
    exact ih (h.perform hcall) hrest

/-- Values for one key that differ are held apart. -/
theorem length_ne_one_of_remembers {readset : ReadSet} {key : Bytes} {v w : Slice}
    (hv : Remembers readset key v) (hw : Remembers readset key w)
    (hne : bytesEqual v w = false) :
    ∃ values, readset.lookup key = some values ∧ values.length ≠ 1 := by
  obtain ⟨values, hlookup, v', hv', heqv⟩ := hv
  obtain ⟨values', hlookup', w', hw', heqw⟩ := hw
  obtain rfl := Option.some.inj (hlookup.symm.trans hlookup')
  refine ⟨values, hlookup, fun hone => ?_⟩
  obtain ⟨u, rfl⟩ := List.length_eq_one_iff.mp hone
  obtain rfl := List.mem_singleton.mp hv'
  obtain rfl := List.mem_singleton.mp hw'
  rw [bytesEqual_iff] at heqv heqw
  rw [bytesEqual_iff.mpr (heqv.trans heqw.symm)] at hne
  cases hne

/-- **Non-repeatable reads are caught.** In every execution of a transaction, with the store
below changing between its calls, each value obtained from outside is in the read set, up
to `bytes.Equal`. If two values obtained for one key differ, then in every later state the
check of the published read set does not succeed, and it fails without a panic when the
reads it makes do not panic. -/
theorem nonrepeatable_read_caught {incarnation : ℤ} {abortChannel : Channel Abort}
    {totalTask : ℕ} {calls : List (Store π × Call)} {t : Transaction}
    (hrun : (new index incarnation abortChannel totalTask).run calls = some t) :
    (∀ k v, (k, v) ∈ t.obtained → Remembers t.store.readset k v) ∧
    ∀ k v w, (k, v) ∈ t.obtained → (k, w) ∈ t.obtained → bytesEqual v w = false →
      ∀ (versionList : Bool) (s : Store π) (m : Mvkv (Store π)),
        (VersionIndexedStore.writeToMultiVersionStore versionList).run ⟨t.store, s⟩ = .ok ⟨⟩ m →
        ∀ s' : Store π,
          s'.txReadSets.lookup index = m.multiVersionStore.txReadSets.lookup index →
          (∀ found, s'.checkReadsetAtIndex index = .ok found → found.1 = false) ∧
          (s'.Usable → (∀ key ∈ t.store.readset, ∃ value,
              BasicKVStore.get s'.parentStore key = .ok value) →
            ∃ conflicts, s'.checkReadsetAtIndex index = .ok (false, conflicts)) := by
  have hsound : Sound index t :=
    Sound.run ⟨rfl, fun k v hkv => absurd hkv List.not_mem_nil⟩ hrun
  refine ⟨hsound.remembers, fun k v w hv hw hne versionList s m hwrite s' hread => ?_⟩
  obtain ⟨values, hlookup, hlen⟩ :=
    length_ne_one_of_remembers (hsound.remembers k v hv) (hsound.remembers k w hw) hne
  -- the read set is not empty, so it was published
  have hpublished : s'.txReadSets.lookup index = some t.store.readset := by
    obtain ⟨s₁, -, hm⟩ := run_writeToMultiVersionStore hwrite
    have hkey : k ∈ t.store.readset.keys :=
      AList.mem_keys.mp (mem_iff_exists_lookup.mpr ⟨values, hlookup⟩)
    rw [hread, hm, hsound.index_eq]
    simp only [List.length_pos_of_mem hkey, if_true, AList.lookup_insert]
  have hfails : ∀ found, s'.checkReadsetAtIndex index = .ok found → found.1 = false := by
    intro found hcheck
    rw [Store.checkReadsetAtIndex, hpublished] at hcheck
    obtain ⟨r, hfold, rfl⟩ := MultiVersionValue.map_eq_ok.mp hcheck
    change r.1 = false
    exact Store.fst_of_foldlM hfold (.inr ⟨⟨k, values⟩, mem_entries_iff.mpr hlookup, none,
      Store.verdict_of_length_ne_one hlen⟩)
  refine ⟨hfails, fun husable hparent => ?_⟩
  obtain ⟨found, hfold⟩ := Store.exists_foldlM (s := s')
    (l := t.store.readset.entries) (fun e he => Store.exists_verdict
      (husable.exists_latest index e.1)
      (hparent e.1 (mem_iff_exists_lookup.mpr ⟨e.2, mem_entries_iff.mp he⟩)) e.2) (true, [])
  have hcheck : s'.checkReadsetAtIndex index = .ok (found.1, sortInts found.2) := by
    rw [Store.checkReadsetAtIndex, hpublished]
    exact MultiVersionValue.map_eq_ok.mpr ⟨found, hfold, rfl⟩
  exact ⟨_, by rw [hcheck, hfails _ hcheck]⟩

end Transaction

end Sound

/-- A key is read from an earlier transaction after an iterator was opened, which still shows
the value of the parent store. -/
theorem Transaction.nonrepeatable_read_caught_run :
    ∃ (p : DbAdapter) (s : Store DbAdapter) (t : Transaction) (m : Mvkv (Store DbAdapter)),
      p.lookup [1] = some [7] ∧
      (Store.setWriteset false 0 0 (AList.singleton [1] (some [9])) 2).run
        (newMultiVersionStore p) = .ok ⟨⟩ s ∧
      (new 1 0 ⟨1, []⟩ 2).run [(newMultiVersionStore p, .iterator none none true),
        (s, .get [1]), (s, .value 0)] = some t ∧
      t.obtained = [([1], some [7]), ([1], some [9])] ∧
      (VersionIndexedStore.writeToMultiVersionStore false).run ⟨t.store, s⟩ = .ok ⟨⟩ m ∧
      Remembers t.store.readset [1] (some [7]) ∧ Remembers t.store.readset [1] (some [9]) ∧
      ∃ conflicts, m.multiVersionStore.checkReadsetAtIndex 1 = .ok (false, conflicts) := by
  refine ⟨DbAdapter.empty.insert [1] (by decide) [7], _, _, _, rfl, rfl,
    and_of_run rfl fun hrun => and_of_run rfl fun hobtained => and_of_run rfl fun hwrite => ?_⟩
  obtain ⟨hremembers, hcaught⟩ := nonrepeatable_read_caught hrun
  rw [hobtained] at hremembers hcaught
  have hfails := hcaught [1] (some [7]) (some [9]) (by decide) (by decide) (by decide) false _ _
    hwrite _ rfl
  exact ⟨hremembers [1] _ (by decide), hremembers [1] _ (by decide), _,
    congrArg (fun valid => Except.ok (valid, _)) (hfails.1 _ rfl)⟩

end MelodiaStore
