import MelodiaStore.ValidateIterator
import MelodiaStore.View
import MelodiaStore.WriteBack

/-!
# Serializability of a Block

The transactions of a block are executed optimistically over one `Store`: in any order, any
number of times, each read seeing the state of the moment. A finished execution publishes
its sets, and the write set of a transaction may be invalidated at any time. `Block.act` is a
step of this system.

Against it stands the sequential execution of the transactions (`Block.Sequential`), in which
each one reads the values that the ones before it have left.

## Main results

* `Block.serializable`: when no version is an estimate and every transaction validates, then
  the published write sets are those of the sequential execution, and writing back leaves
  the parent store in its final state.
* `Block.outcome_unique`: the outcome of a block does not depend on the schedule.
-/

namespace MelodiaStore

open LawfulBasicKVStore (contents)

/-! ### Transactions -/

/-- What a transaction does next. The value of a `Set` is not `nil`. -/
inductive Instr (S : Type)
  | done
  | get (key : Bytes) (next : Slice → S)
  | set (key value : Bytes) (next : S)
  | delete (key : Bytes) (next : S)

/-- The transactions of a block: deterministic programs with states in `S`, which go on alike
from a `nil` and from an empty value. -/
structure Block (S : Type) where
  start : ℕ → S
  code : S → Instr S
  nilBlind : ∀ s key next, code s = .get key next → next none = next (some [])

namespace Block

variable {S : Type} (block : Block S) {s : S}

/-- Values that `bytes.Equal` does not tell apart make no difference to a transaction. -/
theorem next_eq {key : Bytes} {next : Slice → S} (h : block.code s = .get key next) {a b : Slice}
    (hab : bytesEqual a b = true) : next a = next b := by
  have hnil := block.nilBlind s key next h
  rcases bytesEqual_cases hab with rfl | ⟨rfl, rfl⟩ | ⟨rfl, rfl⟩
  · rfl
  · exact hnil
  · exact hnil.symm

/-- From a program state and a write set, a transaction that reads the values `read` where
it has not written itself ends with the write set `w'`. -/
inductive Computes (read : Bytes → Slice) : S → WriteSet → WriteSet → Prop
  | done {s : S} {w : WriteSet} : block.code s = .done → Computes read s w w
  | get {s : S} {w w' : WriteSet} {key : Bytes} {next : Slice → S} :
      block.code s = .get key next → ValidKey key →
      Computes read (next ((w.lookup key).getD (read key))) w w' → Computes read s w w'
  | set {s next : S} {w w' : WriteSet} {key value : Bytes} :
      block.code s = .set key value next → ValidKey key →
      Computes read next (w.insert key (some value)) w' → Computes read s w w'
  | delete {s next : S} {w w' : WriteSet} {key : Bytes} :
      block.code s = .delete key next → ValidKey key →
      Computes read next (w.insert key none) w' → Computes read s w w'

variable {block}

/-- A transaction computes one write set. -/
theorem Computes.unique {read : Bytes → Slice} {w w₁ w₂ : WriteSet}
    (h₁ : block.Computes read s w w₁) (h₂ : block.Computes read s w w₂) : w₁ = w₂ := by
  induction h₁ with
  | done hcode =>
    cases h₂ with
    | done => rfl
    | get hcode' | set hcode' | delete hcode' => cases hcode.symm.trans hcode'
  | get hcode _ _ ih =>
    cases h₂ with
    | get hcode' _ hrest =>
      cases hcode.symm.trans hcode'
      exact ih hrest
    | done hcode' | set hcode' | delete hcode' => cases hcode.symm.trans hcode'
  | set hcode _ _ ih =>
    cases h₂ with
    | set hcode' _ hrest =>
      cases hcode.symm.trans hcode'
      exact ih hrest
    | done hcode' | get hcode' | delete hcode' => cases hcode.symm.trans hcode'
  | delete hcode _ _ ih =>
    cases h₂ with
    | delete hcode' _ hrest =>
      cases hcode.symm.trans hcode'
      exact ih hrest
    | done hcode' | get hcode' | set hcode' => cases hcode.symm.trans hcode'

end Block

/-! ### The sequential execution -/

/-- The values before transaction `i`, when the transactions have the write sets `ws`. -/
def stateBefore (base : Bytes → Slice) (ws : ℕ → WriteSet) : ℕ → Bytes → Slice
  | 0, key => base key
  | i + 1, key => ((ws i).lookup key).getD (stateBefore base ws i key)

variable {base : Bytes → Slice} {ws : ℕ → WriteSet} {i : ℕ}

/-- Only the earlier write sets matter. -/
theorem stateBefore_congr {ws' : ℕ → WriteSet} (h : ∀ j < i, ws j = ws' j) :
    stateBefore base ws i = stateBefore base ws' i := by
  induction i with
  | zero => rfl
  | succ i ih =>
    funext key
    rw [stateBefore, stateBefore, h i (Nat.lt_succ_self i),
      ih fun j hj => h j (Nat.lt_succ_of_lt hj)]

namespace Block

variable {S : Type} {block : Block S}

/-- The write sets of the sequential execution of the first `n` transactions. -/
def Sequential (block : Block S) (n : ℕ) (base : Bytes → Slice) (ws : ℕ → WriteSet) : Prop :=
  ∀ i < n, block.Computes (stateBefore base ws i) (block.start i) ∅ (ws i)

/-- **The sequential execution is unique.** -/
theorem Sequential.unique {n : ℕ} {base : Bytes → Slice} {ws ws' : ℕ → WriteSet}
    (h : block.Sequential n base ws) (h' : block.Sequential n base ws') :
    ∀ i < n, ws i = ws' i := by
  intro i
  induction i using Nat.strong_induction_on with
  | _ i ih =>
    intro hi
    have hbefore : stateBefore base ws i = stateBefore base ws' i :=
      stateBefore_congr fun j hj => ih j hj (hj.trans hi)
    exact (h i hi).unique (hbefore ▸ h' i hi)

end Block

/-! ### Executions -/

/-- An execution of a transaction: where its program is, and its version indexed store. -/
structure Execution (S : Type) where
  state : S
  store : VersionIndexedStore

/-- The values `read` agree with a read set, as far as a transaction can tell. -/
def Consistent (read : Bytes → Slice) (readset : ReadSet) : Prop :=
  ∀ k values, readset.lookup k = some values → ∃ v, values = [v] ∧ bytesEqual (read k) v = true

namespace Block

variable {S : Type} {block : Block S} {π : Type} [KVStore π] {n : ℕ} {store : VersionIndexedStore}
  {key : Bytes} {value : Slice} {e : Execution S}

/-- The next call of a transaction on its version indexed store. -/
def call (block : Block S) (state : S) : EStateM Panic (Mvkv (Store π)) S :=
  match block.code state with
  | .done => pure state
  | .get key next => do pure (next (← VersionIndexedStore.get key))
  | .set key value next => do
    VersionIndexedStore.set key (some value)
    pure next
  | .delete key next => do
    VersionIndexedStore.delete key
    pure next

/-- What holds of an execution at any time: it belongs to the block, and on every reading
that agrees with its read set the transaction comes to where the execution is. -/
structure Follows (block : Block S) (n : ℕ) (e : Execution S) : Prop where
  index_lt : e.store.transactionIndex < n
  totalTask_eq : e.store.totalTask = n
  valid_written : ∀ k ∈ e.store.writeset, ValidKey k
  valid_read : ∀ k ∈ e.store.readset, ValidKey k
  computes : ∀ read w, Consistent read e.store.readset →
    block.Computes read e.state e.store.writeset w →
      block.Computes read (block.start e.store.transactionIndex) ∅ w

/-- A new execution follows its block. -/
theorem Follows.new {i : ℕ} (hi : i < n) (inc : ℤ) (ch : Channel Abort) :
    block.Follows n ⟨block.start i, newVersionIndexedStore i inc ch n⟩ where
  index_lt := hi
  totalTask_eq := rfl
  valid_written k hk := absurd hk (AList.notMem_empty k)
  valid_read k hk := absurd hk (AList.notMem_empty k)
  computes _ _ _ h := h

/-- A value that was read leaves a constraint on the readings. -/
theorem consistent_withRead {read : Bytes → Slice} (hr : store.readset.lookup key = none)
    (h : Consistent read (store.withRead key value).readset) :
    bytesEqual (read key) value = true ∧ Consistent read store.readset := by
  have hlookup : ∀ k, (store.withRead key value).readset.lookup k =
      if k = key then some [value] else store.readset.lookup k := by
    intro k
    rw [VersionIndexedStore.withRead, addRead, lookup_insert_ite, hr]
    rfl
  constructor
  · obtain ⟨v, hv, heq⟩ := h key [value] (by rw [hlookup, if_pos rfl])
    obtain rfl : value = v := by simpa using hv
    exact heq
  · intro k values hk
    refine h k values ?_
    rw [hlookup, if_neg, hk]
    rintro rfl
    cases hr.symm.trans hk

/-- A write of a valid key. -/
theorem Follows.write (h : block.Follows n e) (hkey : ValidKey key) {next : S}
    (hnext : ∀ read w, block.Computes read next (e.store.writeset.insert key value) w →
      block.Computes read e.state e.store.writeset w) :
    block.Follows n ⟨next, { e.store with writeset := e.store.writeset.insert key value }⟩ where
  index_lt := h.index_lt
  totalTask_eq := h.totalTask_eq
  valid_written k hk := by
    rcases (AList.mem_insert _).mp hk with rfl | hk
    · exact hkey
    · exact h.valid_written k hk
  valid_read := h.valid_read
  computes read w hread hw := h.computes read w hread (hnext read w hw)

/-- **Every call keeps an execution on its transaction**, whatever the store below is. -/
theorem Follows.call (h : block.Follows n e) {s s' : Store π} {state : S}
    (hrun : (block.call e.state).run (⟨e.store, s⟩ : Mvkv (Store π)) = .ok state ⟨store, s'⟩) :
    s' = s ∧ store.transactionIndex = e.store.transactionIndex ∧
      block.Follows n ⟨state, store⟩ := by
  unfold Block.call at hrun
  cases hcode : block.code e.state with
  | done =>
    rw [hcode] at hrun
    cases hrun
    exact ⟨rfl, rfl, h⟩
  | get key next =>
    rw [hcode, run_bind_eq_ok] at hrun
    obtain ⟨value, m, hget, hpure⟩ := hrun
    cases hpure
    obtain ⟨hkey, rfl, hcases⟩ := run_get_eq_ok.mp hget
    rcases hcases with ⟨hw, rfl⟩ | ⟨hw, ⟨values, hr⟩, rfl⟩ | ⟨hw, hr, -, rfl⟩
    · refine ⟨rfl, rfl, h.index_lt, h.totalTask_eq, h.valid_written, h.valid_read, ?_⟩
      intro read w hread hrest
      refine h.computes read w hread (.get hcode hkey ?_)
      rwa [hw, Option.getD_some]
    · refine ⟨rfl, rfl, h.index_lt, h.totalTask_eq, h.valid_written, h.valid_read, ?_⟩
      intro read w hread hrest
      obtain ⟨v, hv, heq⟩ := hread key _ hr
      obtain ⟨rfl, -⟩ := List.cons.inj hv
      refine h.computes read w hread (.get hcode hkey ?_)
      rwa [hw, Option.getD_none, block.next_eq hcode heq]
    · refine ⟨rfl, rfl, h.index_lt, h.totalTask_eq, h.valid_written, fun k hk => ?_, ?_⟩
      · rcases (AList.mem_insert _).mp hk with rfl | hk
        · exact hkey
        · exact h.valid_read k hk
      · intro read w hread hrest
        obtain ⟨heq, hread⟩ := consistent_withRead hr hread
        refine h.computes read w hread (.get hcode hkey ?_)
        rwa [hw, Option.getD_none, block.next_eq hcode heq]
  | set key value next =>
    rw [hcode, run_bind_eq_ok] at hrun
    obtain ⟨⟨⟩, m, hset, hpure⟩ := hrun
    obtain ⟨hkey, rfl⟩ := run_set_eq_ok.mp hset
    cases hpure
    exact ⟨rfl, rfl, h.write hkey fun read w hw => .set hcode hkey hw⟩
  | delete key next =>
    rw [hcode, run_bind_eq_ok] at hrun
    obtain ⟨⟨⟩, m, hset, hpure⟩ := hrun
    obtain ⟨hkey, rfl⟩ := run_set_eq_ok.mp hset
    cases hpure
    exact ⟨rfl, rfl, h.write hkey fun read w hw => .delete hcode hkey hw⟩

end Block

/-! ### The system -/

/-- The store, the executions that were started, and for each transaction the version indexed
store whose sets were published last. -/
structure BlockState (S π : Type) where
  store : Store π
  executions : List (Execution S)
  published : ℕ → Option VersionIndexedStore

/-- The start of a block over a parent store. -/
def BlockState.new {S π : Type} (parent : π) : BlockState S π :=
  ⟨newMultiVersionStore parent, [], fun _ => none⟩

/-- The steps of a block: an execution of a transaction is started, an execution makes its
next call, a finished execution publishes its sets, a write set is invalidated. -/
inductive BlockAction
  | start (i : ℕ) (incarnation : ℤ) (abortChannel : Channel Abort)
  | call (j : ℕ)
  | publish (j : ℕ)
  | invalidate (i : ℕ) (incarnation : ℤ)

namespace Block

variable {S : Type} {block : Block S} {π : Type}

/-- Take a step in a block of `n` transactions. A call that panics is not a step: the
execution stays where it is. -/
def act [KVStore π] (block : Block S) (versionList : Bool) (n : ℕ) (b : BlockState S π) :
    BlockAction → Option (BlockState S π)
  | .start i incarnation abortChannel =>
    if i < n then
      some { b with executions := b.executions ++
        [⟨block.start i, newVersionIndexedStore i incarnation abortChannel n⟩] }
    else none
  | .call j =>
    b.executions[j]?.bind fun e =>
      match (block.call e.state).run (⟨e.store, b.store⟩ : Mvkv (Store π)) with
      | .ok state m =>
        some { b with store := m.multiVersionStore
                      executions := b.executions.set j ⟨state, m.store⟩ }
      | .error _ _ => none
  | .publish j =>
    b.executions[j]?.bind fun e =>
      match block.code e.state, (VersionIndexedStore.writeToMultiVersionStore versionList).run
          (⟨e.store, b.store⟩ : Mvkv (Store π)) with
      | .done, .ok _ m =>
        some { b with store := m.multiVersionStore
                      published := Function.update b.published e.store.transactionIndex
                        (some e.store) }
      | _, _ => none
  | .invalidate i incarnation =>
    if i < n then
      match (Store.invalidateWriteset i incarnation n).run b.store with
      | .ok _ s => some { b with store := s }
      | .error _ _ => none
    else none

/-- Run a block over a parent store, with its steps in a given order. -/
def run [KVStore π] (block : Block S) (versionList : Bool) (n : ℕ) (parent : π)
    (actions : List BlockAction) : Option (BlockState S π) :=
  actions.foldlM (block.act versionList n) (BlockState.new parent)

/-- **The invariant of the system**: the executions follow their transactions, those that
were published to the end; and the store holds the published sets. -/
structure Inv (block : Block S) (n : ℕ) (parent : π) (b : BlockState S π) : Prop where
  executions : ∀ e ∈ b.executions, block.Follows n e
  published : ∀ i store, b.published i = some store → store.transactionIndex = i ∧
    ∃ state, block.code state = .done ∧ block.Follows n ⟨state, store⟩
  valid_values : ∀ i store, b.published i = some store → ∀ k v,
    store.writeset.lookup k = some (some v) → ValidValue v
  history : ∃ ops, Tracks n ops b.store ∧
    ∀ i, currentWriteset ops i = ((b.published i).map VersionIndexedStore.writeset).getD ∅
  readset : ∀ i store, b.published i = some store → ∀ k values,
    store.readset.lookup k = some values → (b.store.getReadset i).lookup k = some values
  usable : b.store.Usable
  parent_eq : b.store.parentStore = parent

/-- The start. -/
theorem inv_new (n : ℕ) (parent : π) : block.Inv n parent (BlockState.new parent) where
  executions e he := absurd he List.not_mem_nil
  published i store h := by cases h
  valid_values i store h := by cases h
  history := ⟨[], Tracks.new n parent, fun i => rfl⟩
  readset i store h := by cases h
  usable k h := by cases h
  parent_eq := rfl

variable [KVStore π] {versionList : Bool} {n : ℕ} {parent : π} {b b' : BlockState S π}

/-- Publishing a finished execution keeps the invariant. -/
theorem Inv.publish (h : block.Inv n parent b) {e : Execution S} {m : Mvkv (Store π)}
    (he : block.Follows n e) (hdone : block.code e.state = .done)
    (hrun : (VersionIndexedStore.writeToMultiVersionStore versionList).run
      (⟨e.store, b.store⟩ : Mvkv (Store π)) = .ok ⟨⟩ m) :
    block.Inv n parent
      { b with store := m.multiVersionStore
               published := Function.update b.published e.store.transactionIndex
                (some e.store) } := by
  obtain ⟨ops, htracks, hws⟩ := h.history
  obtain ⟨s₁, hset, hm⟩ := run_writeToMultiVersionStore hrun
  rw [he.totalTask_eq] at hset
  have hstep := Store.setWriteset_ok (htracks.nodup _) hset
  have htracks' := htracks.setWriteset he.index_lt hset
  -- what is published for a transaction: the new sets, or what was there
  have hcases : ∀ i store, Function.update b.published e.store.transactionIndex (some e.store) i =
      some store → i = e.store.transactionIndex ∧ store = e.store ∨
        i ≠ e.store.transactionIndex ∧ b.published i = some store := by
    intro i store hi
    rw [Function.update_apply] at hi
    split at hi
    · next heq => exact .inl ⟨heq, (Option.some.inj hi).symm⟩
    · next hne => exact .inr ⟨hne, hi⟩
  have hreadset : ∀ i, m.multiVersionStore.getReadset i =
      if i = e.store.transactionIndex ∧ e.store.readset.keys.length > 0 then e.store.readset
      else b.store.getReadset i := by
    intro i
    rw [hm, Store.getReadset, Store.getReadset, ← hstep.txReadSets_eq]
    by_cases hlen : e.store.readset.keys.length > 0
    · simp only [hlen, if_true, and_true, lookup_insert_ite]
      split <;> rfl
    · simp only [hlen, if_false, and_false]
  have hpos : 0 < n := Nat.zero_lt_of_lt he.index_lt
  refine ⟨h.executions, fun i store hi => ?_, fun i store hi k v hk => ?_, ?_,
    fun i store hi k values hk => ?_, ?_, ?_⟩
  · rcases hcases i store hi with ⟨rfl, rfl⟩ | ⟨-, hold⟩
    · exact ⟨rfl, e.state, hdone, he⟩
    · exact h.published i store hold
  · rcases hcases i store hi with ⟨rfl, rfl⟩ | ⟨-, hold⟩
    · exact Store.valid_of_setWriteset hset hk
    · exact h.valid_values i store hold k v hk
  · refine ⟨ops ++ [.setWriteset e.store.transactionIndex e.store.incarnation e.store.writeset],
      ?_, fun i => ?_⟩
    · rw [hm]
      exact ⟨htracks'.fits, htracks'.writesetKeys_eq, htracks'.slot_eq⟩
    · simp only [currentWriteset_append, hws, Function.update_apply, StoreOp.index, StoreOp.given,
        Option.getD_some, eq_comm (a := i)]
      split <;> rfl
  · rw [hreadset]
    rcases hcases i store hi with ⟨rfl, rfl⟩ | ⟨hne, hold⟩
    · have hpos : 0 < e.store.readset.keys.length :=
        List.length_pos_of_mem (AList.mem_keys.mpr (mem_iff_exists_lookup.mpr ⟨values, hk⟩))
      rwa [if_pos ⟨rfl, hpos⟩]
    · rw [if_neg fun hi => hne hi.1]
      exact h.readset i store hold k values hk
  · rw [hm]
    exact htracks'.usable hpos
  · rw [hm]
    exact hstep.parentStore_eq.trans h.parent_eq

/-- **Every step keeps the invariant.** -/
theorem Inv.act (h : block.Inv n parent b) {action : BlockAction}
    (hact : block.act versionList n b action = some b') : block.Inv n parent b' := by
  cases action with
  | start i inc ch =>
    obtain ⟨hi, hb⟩ := Option.ite_none_right_eq_some.mp hact
    cases hb
    refine ⟨fun e he => ?_, h.published, h.valid_values, h.history, h.readset,
      h.usable, h.parent_eq⟩
    rcases List.mem_append.mp he with he | he
    · exact h.executions e he
    · rw [List.mem_singleton.mp he]
      exact .new hi inc ch
  | call j =>
    obtain ⟨e, he, hact⟩ := Option.bind_eq_some_iff.mp hact
    split at hact
    · next state m hrun =>
      obtain ⟨hstore, -, hfollows⟩ := (h.executions e (List.mem_of_getElem? he)).call hrun
      cases hact
      rw [hstore]
      refine ⟨fun e' he' => ?_, h.published, h.valid_values, h.history, h.readset,
    h.usable, h.parent_eq⟩
      rcases List.mem_or_eq_of_mem_set he' with he' | rfl
      · exact h.executions e' he'
      · exact hfollows
    · cases hact
  | publish j =>
    obtain ⟨e, he, hact⟩ := Option.bind_eq_some_iff.mp hact
    split at hact
    · next hdone hrun =>
      cases hact
      exact h.publish (h.executions e (List.mem_of_getElem? he)) hdone hrun
    · cases hact
  | invalidate i inc =>
    obtain ⟨hi, hact⟩ := Option.ite_none_right_eq_some.mp hact
    split at hact
    · next s hrun =>
      cases hact
      obtain ⟨ops, htracks, hws⟩ := h.history
      have hstep := Store.invalidateWriteset_ok (htracks.nodup i) hrun
      have htracks' := htracks.invalidateWriteset hi hrun
      refine ⟨h.executions, h.published, h.valid_values, ⟨_, htracks', fun j => ?_⟩, ?_,
        htracks'.usable (Nat.zero_lt_of_lt hi), hstep.parentStore_eq.trans h.parent_eq⟩
      · rw [currentWriteset_append, hws]
        simp only [StoreOp.given, Option.getD_none, ite_self]
      · simp only [Store.getReadset, hstep.txReadSets_eq]
        exact h.readset
    · cases hact

/-- The invariant holds in every state of the system. -/
theorem inv_of_run {actions : List BlockAction}
    (h : block.run versionList n parent actions = some b) : block.Inv n parent b := by
  have hinv : block.Inv n parent (BlockState.new parent) := inv_new n parent
  unfold run at h
  generalize BlockState.new parent = b₀ at h hinv
  induction actions generalizing b₀ with
  | nil =>
    cases h
    exact hinv
  | cons action actions ih =>
    rw [List.foldlM_cons] at h
    obtain ⟨b₁, hact, h⟩ := Option.bind_eq_some_iff.mp h
    exact ih b₁ h (hinv.act hact)

end Block

/-! ### Serializability -/

/-- The values of the latest versions below an index are those before the transaction. -/
theorem latestBelow_value_eq {entry : ℕ → Option ValueItem} {key : Bytes}
    (h : ∀ j < i, (entry j).map ValueItem.value = (ws j).lookup key) :
    ((latestBelow entry i).map ValueItem.value).getD (base key) = stateBefore base ws i key := by
  induction i with
  | zero => rfl
  | succ i ih =>
    have ih := ih fun j hj => h j (Nat.lt_succ_of_lt hj)
    have hi := h i (Nat.lt_succ_self i)
    rw [stateBefore, ← hi]
    cases he : entry i with
    | none =>
      rw [latestBelow, he]
      exact ih
    | some e =>
      rw [latestBelow, he]
      rfl

/-- The store holds the write set `w` of a transaction: its keys are recorded, and its values
are those of the transaction's versions. -/
def Store.Publishes {π : Type} (s : Store π) (i : ℕ) (w : WriteSet) : Prop :=
  (∀ k, k ∈ s.writesetKeys i ↔ k ∈ w) ∧
    ∀ k v, w.lookup k = some v ↔ ∃ e ∈ s.versions k, e.index = i ∧ e.value = v

section Quiet

variable {π : Type} {n : ℕ} {ops : List StoreOp} {s : Store π} (h : Tracks n ops s)
  (hest : ∀ k, ∀ e ∈ s.versions k, e.isEstimate = false)
include h hest

/-- A version has the value of the write set. -/
theorem Tracks.value_eq (i : ℕ) (k : Bytes) :
    (currentEntry ops i k).map ValueItem.value = (currentWriteset ops i).lookup k := by
  refine value_currentEntry fun e he => hest k e (h.mem_versions_iff.mpr ?_)
  rwa [index_currentEntry he]

/-- **What is fetched** in a block without estimates are the values before the transaction. -/
theorem Tracks.fetch_eq [LawfulKVStore π] {i : ℕ} (hi : i < n) {key : Bytes}
    (hkey : ValidKey key) :
    s.fetch i key = .ok (stateBefore (contents s.parentStore) (currentWriteset ops) i key) := by
  rw [← latestBelow_value_eq fun j _ => h.value_eq hest j key, Store.fetch,
    h.getLatestBeforeIndex_eq hi]
  cases hlatest : latestBelow (fun j => currentEntry ops j key) i with
  | none => exact LawfulBasicKVStore.get_eq s.parentStore key hkey
  | some e =>
    obtain ⟨j, -, hj, -⟩ := latestBelow_eq_some_iff.mp hlatest
    have hmem : e ∈ s.versions key := by
      rw [h.mem_versions_iff, index_currentEntry hj, hj]
    simp [hest key e hmem]

/-- What is written back in a block without estimates is the latest version. -/
theorem Tracks.written_eq (husable : s.Usable)
    (hlt : ∀ i, ∀ k ∈ currentWriteset ops i, i < n) (key : Bytes) :
    s.written key = latestBelow (fun i => currentEntry ops i key) n := by
  have hmem : ∀ {i e}, currentEntry ops i key = some e → e.isEstimate = false := fun he =>
    hest key _ (h.mem_versions_iff.mpr (by rw [index_currentEntry he, he]))
  refine Option.ext fun e => ?_
  rw [husable.written_eq_some_iff, latestBelow_eq_some_iff, IsLatest]
  simp only [h.slot_eq]
  constructor
  · rintro ⟨i, hi, -, hlast⟩
    have hin : i < n := hlt i key (mem_currentWriteset_iff.mpr ⟨e, hi⟩)
    refine ⟨i, hin, hi, fun i' hlt' _ => Option.eq_none_iff_forall_ne_some.mpr fun e' he' => ?_⟩
    have hest' := hlast i' e' hlt' he'
    rw [hmem he'] at hest'
    cases hest'
  · rintro ⟨i, -, hi, hlast⟩
    refine ⟨i, hi, hmem hi, fun i' e' hlt' he' => ?_⟩
    have hin : i' < n := hlt i' key (mem_currentWriteset_iff.mpr ⟨e', he'⟩)
    rw [hlast i' hlt' hin] at he'
    cases he'

/-- A block without estimates publishes the current write sets. -/
theorem Tracks.publishes (i : ℕ) : s.Publishes i (currentWriteset ops i) := by
  refine ⟨fun k => h.mem_writesetKeys, fun k v => ?_⟩
  rw [← h.value_eq hest i k, Option.map_eq_some_iff]
  constructor
  · rintro ⟨e, he, rfl⟩
    exact ⟨e, h.mem_versions_iff.mpr (by rw [index_currentEntry he, he]), index_currentEntry he,
      rfl⟩
  · rintro ⟨e, he, rfl, rfl⟩
    exact ⟨e, h.mem_versions_iff.mp he, rfl⟩

end Quiet

namespace Block

variable {S : Type} {block : Block S} {π : Type} [LawfulKVStore π] {n i : ℕ} {parent : π}
  {b : BlockState S π} {ops : List StoreOp}

omit [LawfulKVStore π] in
/-- What the current write sets hold was written by executions of the block. -/
theorem Inv.of_lookup_currentWriteset (h : block.Inv n parent b) (hws : ∀ i, currentWriteset ops i =
      ((b.published i).map VersionIndexedStore.writeset).getD ∅) {k : Bytes} {value : Slice}
    (hk : (currentWriteset ops i).lookup k = some value) :
    i < n ∧ ValidKey k ∧ ∀ v, value = some v → ValidValue v := by
  rw [hws] at hk
  cases hstore : b.published i with
  | none =>
    rw [hstore] at hk
    cases hk
  | some store =>
    rw [hstore] at hk
    obtain ⟨rfl, state, -, hfollows⟩ := h.published i store hstore
    refine ⟨hfollows.index_lt, ?_, ?_⟩
    · exact hfollows.valid_written k (mem_iff_exists_lookup.mpr ⟨value, hk⟩)
    · rintro v rfl
      exact h.valid_values _ store hstore k v hk

/-- **A transaction that validates has computed what it would compute now.** -/
theorem Inv.computes (h : block.Inv n parent b) (htracks : Tracks n ops b.store)
    (hest : ∀ k, ∀ e ∈ b.store.versions k, e.isEstimate = false) (hi : i < n)
    {store : VersionIndexedStore} (hstore : b.published i = some store)
    (hvalid : b.store.ValidateTransactionState i true []) :
    block.Computes (stateBefore (contents parent) (currentWriteset ops) i)
      (block.start i) ∅ store.writeset := by
  obtain ⟨rfl, state, hdone, hfollows⟩ := h.published i store hstore
  refine hfollows.computes _ _ (fun k values hk => ?_) (.done hdone)
  -- the recorded value is what is fetched now
  have hkey := hfollows.valid_read k (mem_iff_exists_lookup.mpr ⟨values, hk⟩)
  obtain ⟨v, fetched, rfl, hfetch, heq⟩ := Store.fetch_of_checkReadset hvalid.checkReadset
    (h.readset _ store hstore k values hk)
  rw [htracks.fetch_eq hest hi hkey, h.parent_eq] at hfetch
  obtain rfl := Except.ok.inj hfetch
  exact ⟨v, rfl, heq⟩

/-- Writing back leaves the values after the last transaction. -/
theorem Inv.writeBack (h : block.Inv n parent b) (htracks : Tracks n ops b.store)
    (hws : ∀ i, currentWriteset ops i =
      ((b.published i).map VersionIndexedStore.writeset).getD ∅)
    (hest : ∀ k, ∀ e ∈ b.store.versions k, e.isEstimate = false) :
    ∃ p, Store.writeLatestToStore.run b.store = .ok ⟨⟩ { b.store with parentStore := p } ∧
      ∀ k, contents p k =
        stateBefore (contents parent) (currentWriteset ops) n k := by
  have hwritten : ∀ k, b.store.written k = latestBelow (fun i => currentEntry ops i k) n := by
    refine htracks.written_eq hest h.usable fun i k hk => ?_
    obtain ⟨value, hvalue⟩ := mem_iff_exists_lookup.mp hk
    exact (h.of_lookup_currentWriteset hws hvalue).1
  obtain ⟨p, hrun, hcontents⟩ := Store.run_writeLatestToStore h.usable fun k e he => by
    rw [hwritten] at he
    obtain ⟨i, -, he, -⟩ := latestBelow_eq_some_iff.mp he
    have hlookup := htracks.value_eq hest i k
    rw [he, Option.map_some] at hlookup
    exact (h.of_lookup_currentWriteset hws hlookup.symm).2
  refine ⟨p, hrun, fun k => (hcontents k).trans ?_⟩
  rw [hwritten, h.parent_eq]
  exact latestBelow_value_eq fun j _ => htracks.value_eq hest j k

/-- **Serializability.** Take any state that a block of `n` transactions reaches over a
parent store, in which no version is an estimate, every transaction has published, and
`ValidateTransactionState` returns `true` without conflicts for each of them. Then the write
sets in the store are those of the sequential execution over the parent store, and
`WriteLatestToStore` leaves the parent store in the final state of the sequential execution. -/
theorem serializable (block : Block S) {versionList : Bool} {n : ℕ} {parent : π}
    {b : BlockState S π} {actions : List BlockAction}
    (hrun : block.run versionList n parent actions = some b)
    (hest : ∀ k, ∀ e ∈ b.store.versions k, e.isEstimate = false)
    (hpublished : ∀ i < n, ∃ store, b.published i = some store)
    (hvalid : ∀ i < n, b.store.ValidateTransactionState i true []) :
    ∃ ws : ℕ → WriteSet,
      block.Sequential n (LawfulBasicKVStore.contents parent) ws ∧
      (∀ i < n, b.store.Publishes i (ws i)) ∧
      ∃ p, Store.writeLatestToStore.run b.store = .ok ⟨⟩ { b.store with parentStore := p } ∧
        ∀ k, LawfulBasicKVStore.contents p k =
          stateBefore (LawfulBasicKVStore.contents parent) ws n k := by
  have hinv := inv_of_run hrun
  obtain ⟨ops, htracks, hws⟩ := hinv.history
  refine ⟨currentWriteset ops, fun i hi => ?_, fun i _ => ?_,
    hinv.writeBack htracks hws hest⟩
  · obtain ⟨store, hstore⟩ := hpublished i hi
    rw [hws, hstore]
    exact hinv.computes htracks hest hi hstore (hvalid i hi)
  · exact htracks.publishes hest i

end Block

/-! ### A run -/

section Settled

variable {S π : Type} [KVStore π] {b : BlockState S π} {n : ℕ}

/-- No version is an estimate, and each of the first `n` transactions has published, has used
no iterator and has a valid read set. -/
def BlockState.settled (b : BlockState S π) (n : ℕ) : Bool :=
  (b.store.multiVersionMap.entries.all fun entry => entry.2.entries.all fun e => !e.isEstimate) &&
    (List.range n).all fun i =>
      (b.published i).isSome && (b.store.txIterateSets.lookup i).isNone &&
        match b.store.checkReadsetAtIndex i with
        | .ok (true, []) => true
        | _ => false

theorem BlockState.isEstimate_of_settled (h : b.settled n = true) (k : Bytes) :
    ∀ e ∈ b.store.versions k, e.isEstimate = false := by
  intro e he
  have hall := (Bool.and_eq_true_iff.mp h).1
  cases hitem : b.store.multiVersionMap.lookup k with
  | none =>
    rw [Store.versions, hitem] at he
    cases he
  | some item =>
    rw [Store.versions, hitem] at he
    have hentry := List.all_eq_true.mp hall ⟨k, item⟩ (mem_entries_iff.mpr hitem)
    exact Bool.not_eq_true' _ ▸ List.all_eq_true.mp hentry e he

theorem BlockState.of_settled (h : b.settled n = true) {i : ℕ} (hi : i < n) :
    (∃ store, b.published i = some store) ∧ b.store.ValidateTransactionState i true [] := by
  have hall := List.all_eq_true.mp (Bool.and_eq_true_iff.mp h).2 i (List.mem_range.mpr hi)
  obtain ⟨hleft, hcheck⟩ := Bool.and_eq_true_iff.mp hall
  obtain ⟨hpub, hiter⟩ := Bool.and_eq_true_iff.mp hleft
  refine ⟨Option.isSome_iff_exists.mp hpub, true, true, ?_, ?_, rfl⟩
  · rw [Store.CheckIteratorAtIndex, Option.isNone_iff_eq_none.mp hiter]
  · split at hcheck
    · assumption
    · cases hcheck

end Settled

/-- Two transactions: the first one writes a key, the second one copies what it reads there. -/
def Block.copying : Block (ℕ × Bytes) where
  start i := (i, [])
  code
    | (0, _) => .set [1] [7] (3, [])
    | (1, _) => .get [1] fun v => (2, v.getD [])
    | (2, v) => .set [2] v (3, [])
    | _ => .done
  nilBlind s key next h := by
    rcases s with ⟨_ | _ | _ | _, v⟩ <;> cases h
    rfl

/-- The second transaction runs first and copies nothing. When the first one has published it is
invalidated and run again. -/
def Block.copyingActions : List BlockAction :=
  [.start 1 0 ⟨1, []⟩, .call 0, .call 0, .publish 0, .start 0 0 ⟨1, []⟩, .call 1, .publish 1,
    .invalidate 1 0, .start 1 1 ⟨1, []⟩, .call 2, .call 2, .publish 2]

/-- Two transactions, run out of order. -/
theorem Block.serializable_run :
    ∃ (b : BlockState (ℕ × Bytes) DbAdapter) (ws : ℕ → WriteSet),
      Block.copying.run false 2 DbAdapter.empty copyingActions = some b ∧
      Block.copying.Sequential 2 (LawfulBasicKVStore.contents DbAdapter.empty) ws ∧
      (∀ i < 2, b.store.Publishes i (ws i)) ∧
      ∃ p, Store.writeLatestToStore.run b.store = .ok ⟨⟩ { b.store with parentStore := p } ∧
        ∀ k, LawfulBasicKVStore.contents p k =
          stateBefore (LawfulBasicKVStore.contents DbAdapter.empty) ws 2 k := by
  have hany : (Block.copying.run false 2 DbAdapter.empty copyingActions).any
      (fun b => b.settled 2) = true := by decide +kernel
  obtain ⟨b, hrun, hb⟩ := (Option.any_eq_true _ _).mp hany
  obtain ⟨ws, hws⟩ := Block.copying.serializable hrun
    (BlockState.isEstimate_of_settled hb) (fun i hi => (BlockState.of_settled hb hi).1)
    fun i hi => (BlockState.of_settled hb hi).2
  exact ⟨b, ws, hrun, hws⟩

end MelodiaStore
