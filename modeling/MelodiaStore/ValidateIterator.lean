import MelodiaStore.Iterator
import MelodiaStore.Readset

/-!
# Validation of Iterators

`Store.validateIterator` of `multiversion/store.go` with the validation iterator of
`multiversion/memiterator.go`. A goroutine replays the iteration that a tracker has recorded
against the present state. It compares the keys it meets with the recorded ones, and sends
its verdict to the caller on one channel; whenever its iterator reads an estimate, it first
sends an abort on another one. The caller takes what comes first, by a `select` over both
channels, each of which has room for one element.

The store is fixed while the goroutine runs. What it does is then a sequence of sends
(`Store.sends`), and `Race` is the system of the two processes.

## Main results

* `canReturn_true_iff`: the caller can return `true` exactly if that is the goroutine's verdict,
  after at most one abort.
* `Store.validateIterator_true_iff`: the same for the goroutine of a tracker.
-/

namespace MelodiaStore

/-! ### The validation iterator -/

/-- What the goroutine keeps: the read cache of its iterator, and the aborts it has sent. -/
structure Validation where
  readCache : GoMap Bytes Slice
  sent : List Abort

namespace Validation

/-- `validationIterator.Value`, with `latest` for `GetLatestBeforeIndex`. A key without a
version is a method call on `nil`. -/
def value (latest : Bytes → Except Panic (Option ValueItem)) (writeset : WriteSet) (key : Bytes) :
    EStateM Panic Validation Slice := do
  match writeset.lookup key with
  | some val => pure val
  | none =>
    match (← get).readCache.lookup key with
    | some val => pure val
    | none =>
      match ← ofExcept (latest key) with
      | none => throw .nilInterface
      | some val =>
        if val.isEstimate then
          modify fun st => { st with sent := st.sent ++ [newEstimateAbort val.index] }
        let value := if val.isDeleted then none else val.value
        modify fun st => { st with readCache := st.readCache.insert key value }
        pure value

/-- The state after a version was read. -/
def withVersion (st : Validation) (key : Bytes) (val : ValueItem) : Validation where
  readCache := st.readCache.insert key val.value
  sent := if val.isEstimate then st.sent ++ [newEstimateAbort val.index] else st.sent

/-- What `Value` returns, by the place the value comes from. -/
theorem run_value (latest : Bytes → Except Panic (Option ValueItem)) (writeset : WriteSet)
    (key : Bytes) (st : Validation) :
    (value latest writeset key).run st =
      match writeset.lookup key, st.readCache.lookup key, latest key with
      | some val, _, _ => .ok val st
      | none, some val, _ => .ok val st
      | none, none, .error e => .error e st
      | none, none, .ok none => .error .nilInterface st
      | none, none, .ok (some val) => .ok val.value (st.withVersion key val) := by
  unfold value
  cases writeset.lookup key with
  | some val => rfl
  | none =>
    dsimp only
    rw [run_bind_of_ok (EStateM.run_get st)]
    cases st.readCache.lookup key with
    | some val => rfl
    | none =>
      cases latest key with
      | error e => rfl
      | ok found =>
        cases found with
        | none => rfl
        | some val =>
          rw [run_bind_of_ok (run_ofExcept_ok (some val) st)]
          simp only [ValueItem.value_of_isDeleted, withVersion]
          cases val.isEstimate <;> rfl

/-- `validationIterator.Value`, and the `NoOpHandler`. -/
def callbacks (latest : Bytes → Except Panic (Option ValueItem)) (writeset : WriteSet) :
    Callbacks Validation where
  value := value latest writeset
  updateReadSet _ _ := pure ⟨⟩

end Validation

/-! ### The goroutine -/

/-- The loop of the goroutine; it runs at most `fuel` rounds. -/
def replay {σ : Type} (cb : Callbacks σ) (tracker : IterationTracker) :
    ℕ → ℕ → MergeIterator → EStateM Panic σ Bool
  | 0, _, _ => throw .outOfFuel
  | fuel + 1, foundKeys, it => do
    let (valid, it) ← it.valid cb
    if valid then
      if (tracker.iteratedKeys.card : ℤ) - foundKeys = 0 then
        pure false
      else
        let (key, it) ← it.key cb
        if key ∈ tracker.iteratedKeys then
          if bytesEqual (some key) tracker.earlyStopKey then
            pure (!decide ((tracker.iteratedKeys.card : ℤ) - ((foundKeys + 1 : ℕ) : ℤ) > 0))
          else
            let it ← it.next cb
            replay cb tracker fuel (foundKeys + 1) it
        else
          pure false
    else
      pure (!decide ((tracker.iteratedKeys.card : ℤ) - foundKeys > 0))

section Model

variable {π : Type} [KVStore π]

/-- The keys of the layer of a validation iterator. -/
def Store.validationItems {π : Type} (s : Store π) (index : ℕ) (tracker : IterationTracker) :
    MemDB :=
  tracker.writeset.keys.foldl addKey (s.collectIteratorItems index)

/-- The goroutine of `validateIterator`, up to its last send. -/
def Store.replayIterator (s : Store π) (index : ℕ) (tracker : IterationTracker) :
    EStateM Panic Validation Bool := do
  let items ← ofExcept (((s.validationItems index tracker).iterator tracker.startKey tracker.endKey
    tracker.ascending).mapError .db)
  let parent ← ofExcept (KVStore.iterator s.parentStore tracker.startKey tracker.endKey
    tracker.ascending)
  replay (Validation.callbacks (s.getLatestBeforeIndex index) tracker.writeset) tracker
    (parent.length + items.length + 1) 0 ⟨parent, items.map Prod.fst, tracker.ascending⟩

/-- What a goroutine does that others can see. -/
inductive Send
  | abort (a : Abort)
  | verdict (valid : Bool)
  | crash
  deriving DecidableEq

/-- The sends of the goroutine; a panic, which ends the program, comes last. -/
def Store.sends (s : Store π) (index : ℕ) (tracker : IterationTracker) : List Send :=
  match (s.replayIterator index tracker).run ⟨∅, []⟩ with
  | .ok valid st => st.sent.map .abort ++ [.verdict valid]
  | .error _ st => st.sent.map .abort ++ [.crash]

end Model

/-! ### The two processes -/

/-- The goroutine with what it has still to send, the two channels, and what the caller has
returned. -/
structure Race where
  goroutine : List Send
  abortChannel : Channel Abort
  validChannel : Channel Bool
  returned : Option Bool

namespace Race

variable {aborts : List Abort} {last : Send} {r : Race}

/-- One step of one process: a send to a channel with room, or the `select` of the caller,
which takes from any channel that holds something. A goroutine that panics takes no step. -/
inductive Step : Race → Race → Prop
  | sendAbort {a : Abort} {rest : List Send} {aborts : Channel Abort} {valids : Channel Bool}
      {returned : Option Bool} : aborts.buffer.length < aborts.capacity →
      Step ⟨.abort a :: rest, aborts, valids, returned⟩
        ⟨rest, { aborts with buffer := aborts.buffer ++ [a] }, valids, returned⟩
  | sendVerdict {valid : Bool} {rest : List Send} {aborts : Channel Abort} {valids : Channel Bool}
      {returned : Option Bool} : valids.buffer.length < valids.capacity →
      Step ⟨.verdict valid :: rest, aborts, valids, returned⟩
        ⟨rest, aborts, { valids with buffer := valids.buffer ++ [valid] }, returned⟩
  | receiveAbort {goroutine : List Send} {capacity : ℕ} {a : Abort} {buffer : List Abort}
      {valids : Channel Bool} :
      Step ⟨goroutine, ⟨capacity, a :: buffer⟩, valids, none⟩
        ⟨goroutine, ⟨capacity, buffer⟩, valids, some false⟩
  | receiveVerdict {goroutine : List Send} {aborts : Channel Abort} {capacity : ℕ} {valid : Bool}
      {buffer : List Bool} :
      Step ⟨goroutine, aborts, ⟨capacity, valid :: buffer⟩, none⟩
        ⟨goroutine, aborts, ⟨capacity, buffer⟩, some valid⟩

/-- The start of `validateIterator`. -/
def start (sends : List Send) : Race := ⟨sends, ⟨1, []⟩, ⟨1, []⟩, none⟩

/-- Some schedule of the two processes lets the caller return `valid`. -/
def CanReturn (sends : List Send) (valid : Bool) : Prop :=
  ∃ r, Relation.ReflTransGen Step (start sends) r ∧ r.returned = some valid

/-- The states of a race whose goroutine sends `aborts` and then `last`: it has not reached
its last send, or it has finished; while the caller waits, the aborts that were sent are in
the channel; and the caller has not been misled. -/
structure Inv (aborts : List Abort) (last : Send) (left : List Abort) (r : Race) : Prop where
  goroutine : r.goroutine = left.map .abort ++ [last] ∧ r.validChannel.buffer = [] ∨
    r.goroutine = [] ∧ left = [] ∧ ∀ valid ∈ r.validChannel.buffer, last = .verdict valid
  capacity : r.abortChannel.capacity = 1
  room : r.abortChannel.buffer.length ≤ 1
  waiting : r.returned = none → r.abortChannel.buffer.length + left.length = aborts.length
  returned : r.returned = some true → last = .verdict true ∧ aborts.length ≤ 1

theorem inv_start (aborts : List Abort) (last : Send) :
    Inv aborts last aborts (start (aborts.map .abort ++ [last])) where
  goroutine := .inl ⟨rfl, rfl⟩
  capacity := rfl
  room := Nat.zero_le 1
  waiting _ := Nat.zero_add _
  returned h := by cases h

/-- Every step keeps the invariant. -/
theorem Inv.step {left : List Abort} {r' : Race} (h : Inv aborts last left r)
    (hlast : ∀ a, last ≠ .abort a) (hstep : Step r r') : ∃ left', Inv aborts last left' r' := by
  cases hstep with
  | @sendAbort a rest ch valids returned hroom =>
    have hempty : ch.buffer.length = 0 := by
      have := h.capacity
      dsimp only at this
      omega
    obtain ⟨hg, hv⟩ | ⟨hg, -⟩ := h.goroutine
    · cases left with
      | nil => exact absurd (List.cons.inj hg).1.symm (hlast a)
      | cons a' left =>
        refine ⟨left, .inl ⟨(List.cons.inj hg).2, hv⟩, h.capacity, ?_, fun hr => ?_, h.returned⟩
        · simp [hempty]
        · have := h.waiting hr
          simp only [List.length_append, List.length_cons, List.length_nil] at this ⊢
          omega
    · cases hg
  | @sendVerdict valid rest ch valids returned hroom =>
    obtain ⟨hg, hv⟩ | ⟨hg, -⟩ := h.goroutine
    · cases left with
      | nil =>
        obtain ⟨hvalid, hrest⟩ := List.cons.inj hg
        refine ⟨[], .inr ⟨hrest, rfl, fun b hb => ?_⟩, h.capacity, h.room, h.waiting,
          h.returned⟩
        dsimp only at hv hb
        rw [hv, List.nil_append, List.mem_singleton] at hb
        rw [hb, hvalid]
      | cons a' left => cases (List.cons.inj hg).1
    · cases hg
  | receiveAbort =>
    refine ⟨left, h.goroutine, h.capacity, ?_, fun hr => ?_, fun hr => ?_⟩
    · have := h.room
      simp only [List.length_cons] at this
      dsimp only
      omega
    · cases hr
    · cases hr
  | receiveVerdict =>
    obtain ⟨-, hv⟩ | ⟨hg, rfl, hv⟩ := h.goroutine
    · cases hv
    · refine ⟨[], .inr ⟨hg, rfl, fun b hb => hv b (List.mem_cons_of_mem _ hb)⟩, h.capacity,
        h.room, fun hr => ?_, fun hr => ?_⟩
      · cases hr
      · obtain rfl := Option.some.inj hr
        have hwait := h.waiting rfl
        have hroom := h.room
        dsimp only [List.length_nil] at hwait hroom
        exact ⟨hv true List.mem_cons_self, by omega⟩

/-- The invariant holds in every state of a race. -/
theorem inv_of_steps (hlast : ∀ a, last ≠ .abort a)
    (h : Relation.ReflTransGen Step (start (aborts.map .abort ++ [last])) r) :
    ∃ left, Inv aborts last left r := by
  induction h with
  | refl => exact ⟨aborts, inv_start aborts last⟩
  | tail _ hstep ih =>
    obtain ⟨left, hinv⟩ := ih
    exact hinv.step hlast hstep

/-- **When the caller can return `true`**: the goroutine's verdict is `true`, and it sends at
most one abort before, so that it does not block. -/
theorem canReturn_true_iff (hlast : ∀ a, last ≠ .abort a) :
    CanReturn (aborts.map .abort ++ [last]) true ↔ last = .verdict true ∧ aborts.length ≤ 1 := by
  constructor
  · rintro ⟨r, hsteps, hr⟩
    obtain ⟨left, hinv⟩ := inv_of_steps hlast hsteps
    exact hinv.returned hr
  · rintro ⟨rfl, hle⟩
    match aborts, hle with
    | [], _ =>
      exact ⟨_, .tail (.tail .refl (.sendVerdict Nat.zero_lt_one)) .receiveVerdict, rfl⟩
    | [a], _ =>
      exact ⟨_, .tail (.tail (.tail .refl (.sendAbort Nat.zero_lt_one))
        (.sendVerdict Nat.zero_lt_one)) .receiveVerdict, rfl⟩

/-- Without aborts the caller returns the verdict. -/
theorem canReturn_verdict_iff {verdict valid : Bool} :
    CanReturn [.verdict verdict] valid ↔ valid = verdict := by
  constructor
  · rintro ⟨r, hsteps, hr⟩
    suffices hinv : (r.goroutine = [.verdict verdict] ∨ r.goroutine = []) ∧
        r.abortChannel.buffer = [] ∧ (∀ b ∈ r.validChannel.buffer, b = verdict) ∧
        ∀ b, r.returned = some b → b = verdict from hinv.2.2.2 valid hr
    clear hr
    induction hsteps with
    | refl => exact ⟨.inl rfl, rfl, fun b hb => absurd hb List.not_mem_nil, fun b hb => by cases hb⟩
    | tail _ hstep ih =>
      obtain ⟨hg, haborts, hvalids, hreturned⟩ := ih
      cases hstep with
      | sendAbort hroom => simp at hg
      | sendVerdict hroom =>
        obtain ⟨rfl, rfl⟩ : _ = verdict ∧ _ = [] := by simpa using hg
        refine ⟨.inr rfl, haborts, fun b hb => ?_, hreturned⟩
        rcases List.mem_append.mp hb with hb | hb
        · exact hvalids b hb
        · exact List.mem_singleton.mp hb
      | receiveAbort => cases haborts
      | receiveVerdict =>
        refine ⟨hg, haborts, fun b hb => hvalids b (List.mem_cons_of_mem _ hb), fun b hb => ?_⟩
        obtain rfl := Option.some.inj hb
        exact hvalids _ List.mem_cons_self
  · rintro rfl
    exact ⟨_, .tail (.tail .refl (.sendVerdict Nat.zero_lt_one)) .receiveVerdict, rfl⟩

end Race

/-- `validateIterator` can return `valid`. -/
def Store.ValidateIterator {π : Type} [KVStore π] (s : Store π) (index : ℕ)
    (tracker : IterationTracker) (valid : Bool) : Prop :=
  Race.CanReturn (s.sends index tracker) valid

variable {π : Type} {index : ℕ} {tracker : IterationTracker}

/-- **When `validateIterator` can return `true`**: the goroutine returns that verdict, after at
most one abort. -/
theorem Store.validateIterator_true_iff [KVStore π] {s : Store π} :
    s.ValidateIterator index tracker true ↔
      ∃ st, (s.replayIterator index tracker).run ⟨∅, []⟩ = .ok true st ∧ st.sent.length ≤ 1 := by
  unfold ValidateIterator sends
  cases (s.replayIterator index tracker).run ⟨∅, []⟩ with
  | ok valid st =>
    rw [Race.canReturn_true_iff (by simp)]
    simp only [Send.verdict.injEq, EStateM.Result.ok.injEq]
    constructor
    · rintro ⟨rfl, hle⟩
      exact ⟨st, ⟨rfl, rfl⟩, hle⟩
    · rintro ⟨st, ⟨rfl, rfl⟩, hle⟩
      exact ⟨rfl, hle⟩
  | error e st =>
    rw [Race.canReturn_true_iff (by simp)]
    simp

/-- `validateIterator` can return `true` after an abort was sent when there is just one. -/
theorem Store.abort_and_validateIterator_true_iff [KVStore π] {s : Store π} :
    (∃ a, .abort a ∈ s.sends index tracker) ∧ s.ValidateIterator index tracker true ↔
      ∃ st, (s.replayIterator index tracker).run ⟨∅, []⟩ = .ok true st ∧ st.sent.length = 1 := by
  have hsends : ∀ {st}, (s.replayIterator index tracker).run ⟨∅, []⟩ = .ok true st →
      ((∃ a, .abort a ∈ s.sends index tracker) ↔ 0 < st.sent.length) := by
    intro st hrun
    rw [sends, hrun, List.length_pos_iff_exists_mem]
    simp
  rw [validateIterator_true_iff]
  constructor
  · rintro ⟨habort, st, hrun, hle⟩
    exact ⟨st, hrun, Nat.le_antisymm hle ((hsends hrun).mp habort)⟩
  · rintro ⟨st, hrun, hone⟩
    exact ⟨(hsends hrun).mpr (by omega), st, hrun, by omega⟩

/-! ### Validation of a transaction -/

section Validate

variable {π : Type} [KVStore π]

/-- `checkIteratorAtIndex` can return `valid`: each tracker of the transaction is validated,
whatever the earlier ones gave. -/
def Store.CheckIteratorAtIndex (s : Store π) (index : ℕ) (valid : Bool) : Prop :=
  match s.txIterateSets.lookup index with
  | none => valid = true
  | some iterateset => ∃ verdicts,
      List.Forall₂ (fun tracker v => s.ValidateIterator index tracker v) iterateset verdicts ∧
        valid = verdicts.all id

/-- `ValidateTransactionState` can return `valid` and `conflictIndices`. -/
def Store.ValidateTransactionState (s : Store π) (index : ℕ) (valid : Bool)
    (conflictIndices : List ℕ) : Prop :=
  ∃ iteratorValid readsetValid, s.CheckIteratorAtIndex index iteratorValid ∧
    s.checkReadsetAtIndex index = .ok (readsetValid, conflictIndices) ∧
    valid = (iteratorValid && readsetValid)

/-- A transaction that validates has a valid read set. -/
theorem Store.ValidateTransactionState.checkReadset {s : Store π} {index : ℕ}
    {conflictIndices : List ℕ} (h : s.ValidateTransactionState index true conflictIndices) :
    s.checkReadsetAtIndex index = .ok (true, conflictIndices) := by
  obtain ⟨iteratorValid, readsetValid, -, hread, hvalid⟩ := h
  rw [(Bool.and_eq_true_iff.mp hvalid.symm).2] at hread
  exact hread

end Validate

end MelodiaStore
