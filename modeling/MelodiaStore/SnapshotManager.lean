import MelodiaStore.Extensions
import MelodiaStore.SnapshotStore

/-!
# The Snapshot Manager

`Manager` of `snapshots/manager.go`: which operation is in progress, and how far a restore is.
`Restore` begins one, `RestoreChunk` feeds it, and a goroutine reads the chunks and reports how it
ended; the other operations begin and end within one call.

The calls are made one after the other. What they depend on besides the manager is an input of
each: which calls of the database and the file system fail, the chunks that a new snapshot consists
of, and what the goroutine has reported. A channel is a reference, or `nil`.

## Main results

* `SnapshotManager.staysUsable_iff`: the manager is usable after every call, and a `Restore` that
  fails changes nothing, exactly if no `Restore` fails to make its directory and no `RestoreChunk`
  fails to save the metadata behind the last chunk.
* `SnapshotManager.staysUsable_fails`: a `Restore` that cannot make its directory.
-/

namespace MelodiaStore

/-! ### The manager -/

/-- `snapshots.operation`. -/
inductive Operation
  | none
  | snapshot
  | prune
  | restore
  deriving DecidableEq

/-- A reference to a channel. -/
abbrev Chan := ℕ

/-- `snapshots.restoreDone`. -/
structure RestoreDone where
  complete : Bool
  err : Option RestoreError

/-- `types.CurrentFormat`. -/
def currentFormat : UInt32 := 3

/-- `snapshots.Manager`. -/
structure SnapshotManager where
  store : SnapshotStore
  operation : Operation
  chRestore : Option Chan
  chRestoreDone : Option Chan
  restoreSnapshot : Option Snapshot
  restoreChunkIndex : UInt32

/-- The errors of the manager. -/
inductive ManagerError
  /-- `ErrLogic`: can't begin a none operation -/
  | noneOperation
  /-- `ErrConflict`: an operation is in progress -/
  | inProgress (op : Operation)
  /-- failed to examine latest snapshot -/
  | latest (e : SnapshotStoreError)
  /-- `ErrConflict`: a more recent snapshot already exists -/
  | moreRecent (height : UInt64)
  /-- an error of the store -/
  | store (e : SnapshotStoreError)
  /-- `ErrInvalidMetadata`: no chunks -/
  | noChunks
  /-- `ErrInvalidMetadata`: snapshot has chunk hashes, but chunks -/
  | chunkHashes (hashes chunks : UInt32)
  /-- `ErrUnknownFormat`: snapshot format -/
  | unknownFormat (format : UInt32)
  /-- `ErrLogic`: cannot restore snapshot at height 0 -/
  | heightZero
  /-- `ErrInvalidMetadata`: snapshot height cannot exceed -/
  | heightLimit (height : UInt64)
  /-- failed to create snapshot directory -/
  | directory (dir : Path)
  /-- `ErrLogic`: no restore operation in progress -/
  | noRestore
  /-- `ErrLogic`: received unexpected chunk -/
  | unexpectedChunk
  /-- `ErrLogic`: restore ended unexpectedly -/
  | endedUnexpectedly
  /-- `ErrChunkHashMismatch`: expected, got -/
  | chunkHashMismatch (hash expected : Bytes)
  /-- save chunk content -/
  | saveChunkContent (index : UInt32)
  /-- save restoring snapshot -/
  | saveSnapshot (e : SnapshotStoreError)
  /-- `ErrLogic`: restore ended prematurely -/
  | endedPrematurely
  /-- the error of the restore itself -/
  | restore (e : RestoreError)
  /-- snapshot doesn't exist -/
  | notFound (height : UInt64) (format : UInt32)
  /-- the runtime panics at a nil pointer -/
  | nilPointer
  /-- the call does not return, since a channel is nil -/
  | blocked

namespace SnapshotManager

/-- `snapshots.NewManager`. -/
def newManager (store : SnapshotStore) : SnapshotManager where
  store := store
  operation := .none
  chRestore := none
  chRestoreDone := none
  restoreSnapshot := none
  restoreChunkIndex := 0

/-- `Manager.beginLocked`. -/
def beginLocked (op : Operation) : EStateM ManagerError SnapshotManager Unit := do
  if op = .none then
    throw .noneOperation
  let m ← MonadState.get
  if m.operation ≠ .none then
    throw (.inProgress m.operation)
  set { m with operation := op }

/-- `Manager.endLocked`. -/
def endLocked (m : SnapshotManager) : SnapshotManager where
  store := m.store
  operation := .none
  chRestore := none
  chRestoreDone := none
  restoreSnapshot := none
  restoreChunkIndex := 0

/-- A call of the store. -/
def onStore {α : Type} (wrap : SnapshotStoreError → ManagerError)
    (x : EStateM SnapshotStoreError SnapshotStore α) : EStateM ManagerError SnapshotManager α :=
  fun m =>
    match x.run m.store with
    | .ok a store => .ok a { m with store }
    | .error e store => .error (wrap e) { m with store }

/-- A call in which the database or the file system fails: the error, and what is left of the
store. -/
abbrev StoreFault := Option (SnapshotStoreError × SnapshotStore)

/-- A call of the store that may fail. -/
def faulty {α : Type} (fault : StoreFault) (x : EStateM SnapshotStoreError SnapshotStore α) :
    EStateM SnapshotStoreError SnapshotStore α :=
  match fault with
  | none => x
  | some (e, store) => fun _ => .error e store

/-! ### Create, Prune and RestoreLocalSnapshot -/

/-- What a `Create` depends on: the chunks that `createSnapshot` sends, and what fails. -/
structure CreateInput where
  chunks : List ChunkBody
  latestFault : StoreFault
  saveFault : StoreFault

/-- `Manager.Create`. -/
def create (sha256 : Bytes → Bytes) (height : UInt64) (input : CreateInput) :
    EStateM ManagerError SnapshotManager Snapshot := do
  beginLocked .snapshot
  deferring endLocked do
    let latest ← onStore .latest (faulty input.latestFault (reading fun s => .ok s.getLatest))
    match latest with
    | some latest =>
      if latest.height ≥ height then
        throw (.moreRecent latest.height)
    | none => pure ()
    onStore .store
      (faulty input.saveFault (SnapshotStore.save sha256 { } height currentFormat input.chunks))

/-- `Manager.Prune`. -/
def prune (order : Traversal UInt64 Bool) (retain : UInt32) (fault : StoreFault) :
    EStateM ManagerError SnapshotManager UInt64 := do
  beginLocked .prune
  deferring endLocked (onStore .store (faulty fault (SnapshotStore.prune order retain)))

/-- `Manager.RestoreLocalSnapshot`; `restored` is what `doRestoreSnapshot` returns. -/
def restoreLocalSnapshot (height : UInt64) (format : UInt32) (loadFault : Option SnapshotStoreError)
    (restored : Option RestoreError) : EStateM ManagerError SnapshotManager Unit := do
  match loadFault with
  | some e => throw (.store e)
  | none =>
    let m ← MonadState.get
    if (m.store.load height format).isNone then
      throw (.notFound height format)
    beginLocked .restore
    deferring endLocked do
      match restored with
      | some e => throw (.restore e)
      | none => pure ()

/-! ### Restore and RestoreChunk -/

/-- The checks of `Manager.Restore` on the snapshot. The number of the hashes is compared as a
`uint32`. -/
def checkRestore (snapshot : Snapshot) : Except ManagerError Unit :=
  if snapshot.chunks = 0 then .error .noChunks
  else if UInt32.ofNat snapshot.chunkHashes.length ≠ snapshot.chunks then
    .error (.chunkHashes (UInt32.ofNat snapshot.chunkHashes.length) snapshot.chunks)
  else if snapshot.format ≠ currentFormat then .error (.unknownFormat snapshot.format)
  else if snapshot.height = 0 then .error .heightZero
  else if snapshot.height.toNat > 2 ^ 63 - 1 then .error (.heightLimit snapshot.height)
  else .ok ()

/-- What a `Restore` depends on: the channels it makes, and whether `os.MkdirAll` fails. -/
structure RestoreInput where
  chChunkIDs : Chan
  chDone : Chan
  mkdirAllFails : Bool := false

/-- `Manager.Restore`. -/
def restore (snapshot : Snapshot) (input : RestoreInput) :
    EStateM ManagerError SnapshotManager Unit := do
  ofExcept (checkRestore snapshot)
  beginLocked .restore
  let m ← MonadState.get
  let dir := pathSnapshot m.store.dir snapshot.height snapshot.format
  if input.mkdirAllFails then
    throw (.directory dir)
  set { m with
    store := { m.store with fs := m.store.fs.mkdirAll dir }
    chRestore := some input.chChunkIDs
    chRestoreDone := some input.chDone
    restoreSnapshot := some snapshot
    restoreChunkIndex := 0 }

/-- How `os.WriteFile` fails: the file cannot be opened, or has only some of the bytes in the
end. -/
inductive WriteFault
  | notOpened
  | short (n : ℕ)

/-- `Store.saveChunkContent`. -/
def saveChunkContent (fault : Option WriteFault) (chunk : Bytes) (index : UInt32)
    (snapshot : Snapshot) : EStateM ManagerError SnapshotManager Unit := do
  let m ← MonadState.get
  match fault with
  | none =>
    set { m with store := m.store.writeChunk snapshot.height snapshot.format index chunk }
  | some .notOpened => throw (.saveChunkContent index)
  | some (.short n) =>
    set { m with
      store := m.store.writeChunk snapshot.height snapshot.format index (chunk.take n) }
    throw (.saveChunkContent index)

/-- The error for a restore that ended before its last chunk. -/
def earlyError (done : RestoreDone) : ManagerError :=
  match done.err with
  | some e => .restore e
  | none => .endedUnexpectedly

/-- `Manager.RestoreChunk` up to where the chunk is passed on: the checks, and saving the chunk.
`done` is what can be received from `chRestoreDone`. It returns the snapshot. -/
def offerChunk (sha256 : Bytes → Bytes) (done : Option RestoreDone) (fault : Option WriteFault)
    (chunk : Bytes) : EStateM ManagerError SnapshotManager Snapshot := do
  let m ← MonadState.get
  if m.operation ≠ .restore then
    throw .noRestore
  match m.restoreSnapshot with
  | none => throw .nilPointer
  | some snapshot =>
    match snapshot.chunkHashes[m.restoreChunkIndex.toNat]? with
    | none => throw .unexpectedChunk
    | some expected =>
      match m.chRestoreDone.bind fun _ => done with
      | some done =>
        set m.endLocked
        throw (earlyError done)
      | none =>
        if sha256 chunk ≠ expected then
          throw (.chunkHashMismatch (sha256 chunk) expected)
        saveChunkContent fault chunk m.restoreChunkIndex snapshot
        return snapshot

/-- `Manager.RestoreChunk` behind the send: the index is counted on, and behind the last chunk the
channel is closed and the metadata saved. It returns whether it was the last one. -/
def passChunk (faults : SaveFaults) (snapshot : Snapshot) :
    EStateM ManagerError SnapshotManager Bool := do
  modify fun m => { m with restoreChunkIndex := m.restoreChunkIndex + 1 }
  let m ← MonadState.get
  if m.restoreChunkIndex.toNat < snapshot.chunkHashes.length then
    return false
  set { m with chRestore := none }
  onStore .saveSnapshot (SnapshotStore.saveSnapshot faults snapshot)
  return true

/-- The end of `Manager.RestoreChunk`, when the restore has ended. -/
def conclude (done : RestoreDone) : EStateM ManagerError SnapshotManager Bool := do
  modify endLocked
  match done.err with
  | some e => throw (.restore e)
  | none =>
    if ¬done.complete then
      throw .endedPrematurely
    return true

/-- What a `RestoreChunk` depends on: what `chRestoreDone` has when it is polled and when it is
waited for, and what fails. -/
structure ChunkInput where
  polled : Option RestoreDone := none
  writeFault : Option WriteFault := none
  saveFaults : SaveFaults := { }
  done : RestoreDone := ⟨true, none⟩

/-- `Manager.RestoreChunk`. A `nil` channel blocks. -/
def restoreChunk (sha256 : Bytes → Bytes) (chunk : Bytes) (input : ChunkInput) :
    EStateM ManagerError SnapshotManager Bool := do
  let snapshot ← offerChunk sha256 input.polled input.writeFault chunk
  let m ← MonadState.get
  if m.chRestore.isNone then
    throw .blocked
  let last ← passChunk input.saveFaults snapshot
  if last then
    if m.chRestoreDone.isNone then
      throw .blocked
    conclude input.done
  else
    return false

/-! ### Usable managers -/

/-- No operation is in progress. -/
structure Idle (m : SnapshotManager) : Prop where
  operation_eq : m.operation = .none
  chRestore_eq : m.chRestore = none
  chRestoreDone_eq : m.chRestoreDone = none
  restoreSnapshot_eq : m.restoreSnapshot = none
  restoreChunkIndex_eq : m.restoreChunkIndex = 0

/-- A restore is in progress and waits for a chunk. -/
structure Restoring (m : SnapshotManager) (snapshot : Snapshot) : Prop where
  operation_eq : m.operation = .restore
  restoreSnapshot_eq : m.restoreSnapshot = some snapshot
  chRestore_isSome : m.chRestore.isSome
  chRestoreDone_isSome : m.chRestoreDone.isSome
  index_lt : m.restoreChunkIndex.toNat < snapshot.chunkHashes.length

/-- What is to hold whenever a call has returned. -/
def Usable (m : SnapshotManager) : Prop := m.Idle ∨ ∃ snapshot, m.Restoring snapshot

/-- A new manager is idle. -/
theorem idle_newManager (store : SnapshotStore) : (newManager store).Idle :=
  ⟨rfl, rfl, rfl, rfl, rfl⟩

theorem idle_endLocked (m : SnapshotManager) : m.endLocked.Idle := ⟨rfl, rfl, rfl, rfl, rfl⟩

/-! ### What the calls do -/

section

variable {m m' : SnapshotManager} {snapshot : Snapshot} {op : Operation} {input : RestoreInput}
  {α : Type} {e : ManagerError}

theorem outcome_beginLocked (hop : op ≠ .none) (h : m.operation = .none) :
    outcome (beginLocked op) m = (.ok (), { m with operation := op }) := by
  rw [beginLocked, if_neg hop, outcome_bind_ok (outcome_get m), if_neg (not_not.mpr h)]
  rfl

theorem outcome_beginLocked_of_busy (hop : op ≠ .none) (h : m.operation ≠ .none) :
    outcome (beginLocked op) m = (.error (.inProgress m.operation), m) := by
  rw [beginLocked, if_neg hop, outcome_bind_ok (outcome_get m), if_pos h]
  rfl

/-- An operation that ends within its call is refused, or leaves an idle manager. -/
theorem usable_bracket (hop : op ≠ .none) (x : EStateM ManagerError SnapshotManager α)
    (h : m.Usable) : (outcome (beginLocked op >>= fun _ => deferring endLocked x) m).2.Usable := by
  by_cases hnone : m.operation = .none
  · rw [outcome_bind_ok (outcome_beginLocked hop hnone), outcome_deferring]
    exact .inl (idle_endLocked _)
  · rw [outcome_bind_error (outcome_beginLocked_of_busy hop hnone)]
    exact h

theorem length_of_checkRestore (h : checkRestore snapshot = .ok ()) :
    0 < snapshot.chunkHashes.length := by
  unfold checkRestore at h
  split_ifs at h with hchunks hhashes
  rw [not_not] at hhashes
  rw [List.length_pos_iff]
  intro hnil
  rw [hnil] at hhashes
  exact hchunks hhashes.symm

/-- A snapshot that is refused. -/
theorem outcome_restore_of_refused (h : checkRestore snapshot = .error e) (input : RestoreInput) :
    outcome (restore snapshot input) m = (.error e, m) := by
  rw [restore, h]
  rfl

section

variable (h : checkRestore snapshot = .ok ())
include h

/-- A manager that is busy. -/
theorem outcome_restore_of_busy (hbusy : m.operation ≠ .none) (input : RestoreInput) :
    outcome (restore snapshot input) m = (.error (.inProgress m.operation), m) := by
  rw [restore, outcome_bind_ok ((outcome_ofExcept _ m).trans (by rw [h])),
    outcome_bind_error (outcome_beginLocked_of_busy (by decide) hbusy)]

/-- A `Restore` that cannot make its directory has begun all the same. -/
theorem outcome_restore_of_mkdirAllFails (hnone : m.operation = .none)
    (hfails : input.mkdirAllFails = true) :
    outcome (restore snapshot input) m = (.error (.directory
      (pathSnapshot m.store.dir snapshot.height snapshot.format)),
      { m with operation := .restore }) := by
  rw [restore, outcome_bind_ok ((outcome_ofExcept _ m).trans (by rw [h])),
    outcome_bind_ok (outcome_beginLocked (by decide) hnone), outcome_bind_ok (outcome_get _),
    if_pos hfails]
  rfl

/-- A `Restore` that is let in. -/
theorem outcome_restore (hnone : m.operation = .none) (hfails : input.mkdirAllFails = false) :
    ∃ m', outcome (restore snapshot input) m = (.ok (), m') ∧ m'.Restoring snapshot ∧
      m'.restoreChunkIndex = 0 := by
  rw [restore, outcome_bind_ok ((outcome_ofExcept _ m).trans (by rw [h])),
    outcome_bind_ok (outcome_beginLocked (by decide) hnone), outcome_bind_ok (outcome_get _),
    if_neg (Bool.eq_false_iff.mp hfails)]
  exact ⟨_, rfl, ⟨rfl, rfl, rfl, rfl, length_of_checkRestore h⟩, rfl⟩

end

/-- A `Restore` that succeeds waits for the first chunk. -/
theorem restoring_of_restore (h : outcome (restore snapshot input) m = (.ok (), m')) :
    m'.Restoring snapshot ∧ m'.restoreChunkIndex = 0 := by
  cases hcheck : checkRestore snapshot with
  | error e =>
    rw [outcome_restore_of_refused hcheck] at h
    cases h
  | ok u =>
    by_cases hnone : m.operation = .none
    · cases hfails : input.mkdirAllFails with
      | true =>
        rw [outcome_restore_of_mkdirAllFails hcheck hnone hfails] at h
        cases h
      | false =>
        obtain ⟨m₁, hrestore, hrestoring⟩ := outcome_restore (m := m) hcheck hnone hfails
        rw [hrestore] at h
        cases h
        exact hrestoring
    · rw [outcome_restore_of_busy hcheck hnone] at h
      cases h

theorem outcome_onStore (wrap : SnapshotStoreError → ManagerError)
    (x : EStateM SnapshotStoreError SnapshotStore α) (m : SnapshotManager) :
    outcome (onStore wrap x) m =
      ((outcome x m.store).1.mapError wrap, { m with store := (outcome x m.store).2 }) := by
  simp only [outcome, onStore, EStateM.run]
  cases x m.store <;> rfl

/-! ### A chunk is offered -/

/-- The chunk is the one that the restore waits for, and it can be saved. -/
structure Accepts (sha256 : Bytes → Bytes) (m : SnapshotManager) (done : Option RestoreDone)
    (fault : Option WriteFault) (chunk : Bytes) (snapshot : Snapshot) : Prop where
  operation_eq : m.operation = .restore
  restoreSnapshot_eq : m.restoreSnapshot = some snapshot
  hash_eq : snapshot.chunkHashes[m.restoreChunkIndex.toNat]? = some (sha256 chunk)
  running : (m.chRestoreDone.bind fun _ => done) = none
  saved : fault = none

/-- The manager when the file of its index has been written. -/
def writeChunk (m : SnapshotManager) (snapshot : Snapshot) (data : Bytes) : SnapshotManager :=
  { m with store := m.store.writeChunk snapshot.height snapshot.format m.restoreChunkIndex data }

/-- A chunk that is not accepted: nothing changes but the file of its index, or the restore had
ended. -/
inductive Refuses (m : SnapshotManager) (done : Option RestoreDone) :
    ManagerError → SnapshotManager → Prop
  | unchanged (e : ManagerError) : Refuses m done e m
  | short {snapshot : Snapshot} (hop : m.operation = .restore)
      (h : m.restoreSnapshot = some snapshot) (data : Bytes) :
      Refuses m done (.saveChunkContent m.restoreChunkIndex) (m.writeChunk snapshot data)
  | ended {d : RestoreDone} (h : done = some d) : Refuses m done (earlyError d) m.endLocked

variable {sha256 : Bytes → Bytes} {done : Option RestoreDone} {fault : Option WriteFault}
  {chunk : Bytes}

theorem Accepts.outcome_offerChunk (h : Accepts sha256 m done fault chunk snapshot) :
    outcome (offerChunk sha256 done fault chunk) m =
      (.ok snapshot, m.writeChunk snapshot chunk) := by
  obtain ⟨hop, hsnapshot, hhash, hrunning, rfl⟩ := h
  rw [offerChunk, outcome_bind_ok (outcome_get m), if_neg (not_not.mpr hop), hsnapshot]
  dsimp only
  rw [hhash]
  dsimp only
  rw [hrunning]
  dsimp only
  rw [if_neg (not_not.mpr rfl)]
  rfl

/-- **All that can happen to a chunk.** -/
theorem offerChunk_cases (sha256 : Bytes → Bytes) (m : SnapshotManager)
    (done : Option RestoreDone) (fault : Option WriteFault) (chunk : Bytes) :
    (∃ snapshot, Accepts sha256 m done fault chunk snapshot) ∨
      ∃ e m', outcome (offerChunk sha256 done fault chunk) m = (.error e, m') ∧
        Refuses m done e m' := by
  rw [offerChunk, outcome_bind_ok (outcome_get m)]
  by_cases hop : m.operation ≠ .restore
  · rw [if_pos hop]
    exact .inr ⟨_, m, rfl, .unchanged _⟩
  rw [if_neg hop]
  cases hsnapshot : m.restoreSnapshot with
  | none => exact .inr ⟨_, m, rfl, .unchanged _⟩
  | some snapshot =>
    dsimp only
    cases hhash : snapshot.chunkHashes[m.restoreChunkIndex.toNat]? with
    | none => exact .inr ⟨_, m, rfl, .unchanged _⟩
    | some expected =>
      dsimp only
      cases hdone : m.chRestoreDone.bind fun _ => done with
      | some d =>
        obtain ⟨ch, -, hd⟩ := Option.bind_eq_some_iff.mp hdone
        exact .inr ⟨_, _, rfl, .ended hd⟩
      | none =>
        dsimp only
        by_cases hmismatch : sha256 chunk ≠ expected
        · rw [if_pos hmismatch]
          exact .inr ⟨_, m, rfl, .unchanged _⟩
        rw [if_neg hmismatch]
        rw [not_not] at hop hmismatch
        cases fault with
        | none => exact .inl ⟨snapshot, hop, hsnapshot, hmismatch ▸ hhash, hdone, rfl⟩
        | some fault =>
          cases fault with
          | notOpened => exact .inr ⟨_, m, rfl, .unchanged _⟩
          | short n => exact .inr ⟨_, _, rfl, .short hop hsnapshot (chunk.take n)⟩

/-- A chunk that is accepted. -/
theorem accepts_of_offerChunk
    (h : outcome (offerChunk sha256 done fault chunk) m = (.ok snapshot, m')) :
    Accepts sha256 m done fault chunk snapshot ∧ m' = m.writeChunk snapshot chunk := by
  rcases offerChunk_cases sha256 m done fault chunk with ⟨other, haccepts⟩ | ⟨e, m₁, herror, -⟩
  · rw [haccepts.outcome_offerChunk] at h
    cases h
    exact ⟨haccepts, rfl⟩
  · rw [herror] at h
    cases h

/-- A chunk that is refused. -/
theorem refuses_of_offerChunk (h : outcome (offerChunk sha256 done fault chunk) m = (.error e, m'))
    : m.Refuses done e m' := by
  rcases offerChunk_cases sha256 m done fault chunk with
    ⟨snapshot, haccepts⟩ | ⟨e', m₁, herror, hrefuses⟩
  · rw [haccepts.outcome_offerChunk] at h
    cases h
  · rw [herror] at h
    cases h
    exact hrefuses

/-! ### A chunk is passed on -/

/-- The restore waits for the next chunk. -/
theorem outcome_passChunk_of_lt (faults : SaveFaults)
    (h : (m.restoreChunkIndex + 1).toNat < snapshot.chunkHashes.length) :
    outcome (passChunk faults snapshot) m =
      (.ok false, { m with restoreChunkIndex := m.restoreChunkIndex + 1 }) := by
  rw [passChunk, outcome_bind_ok (outcome_modify _ m), outcome_bind_ok (outcome_get _), if_pos h]
  rfl

/-- The metadata behind the last chunk is saved, or not; the channel is closed in both cases. -/
theorem outcome_passChunk_of_le (faults : SaveFaults)
    (h : snapshot.chunkHashes.length ≤ (m.restoreChunkIndex + 1).toNat) :
    ∃ r store, outcome (passChunk faults snapshot) m = (r, { m with
        store, chRestore := none, restoreChunkIndex := m.restoreChunkIndex + 1 }) ∧
      (∀ height format c, store.loadChunk height format c = m.store.loadChunk height format c) ∧
      (faults.metadataFails = true ∧ (∃ e, r = .error (.saveSnapshot e)) ∨
        faults.metadataFails = false ∧ r = .ok true) := by
  rw [passChunk, outcome_bind_ok (outcome_modify _ m), outcome_bind_ok (outcome_get _),
    if_neg (not_lt.mpr h), outcome_bind_ok (outcome_set _ _)]
  have hstore := outcome_onStore .saveSnapshot (SnapshotStore.saveSnapshot faults snapshot)
    { m with chRestore := none, restoreChunkIndex := m.restoreChunkIndex + 1 }
  cases hfails : faults.metadataFails with
  | true =>
    obtain ⟨e, hsave, -⟩ := SnapshotStore.outcome_saveSnapshot_of_fails hfails snapshot m.store
    rw [hsave] at hstore
    exact ⟨_, m.store, outcome_bind_error hstore, fun _ _ _ => rfl, .inl ⟨rfl, e, rfl⟩⟩
  | false =>
    rw [SnapshotStore.outcome_saveSnapshot hfails snapshot m.store] at hstore
    exact ⟨_, _, outcome_bind_ok hstore, fun _ _ _ => rfl, .inr ⟨rfl, rfl⟩⟩

/-- What passing a chunk on does to the restore, whether it was the last one or not. -/
theorem passChunk_spec {faults : SaveFaults} {r : Except ManagerError Bool}
    (h : outcome (passChunk faults snapshot) m = (r, m')) :
    m'.operation = m.operation ∧ m'.restoreSnapshot = m.restoreSnapshot ∧
      m'.restoreChunkIndex = m.restoreChunkIndex + 1 ∧
      (∀ height format c, m'.store.loadChunk height format c =
        m.store.loadChunk height format c) ∧
      (r = .ok true → snapshot.chunkHashes.length ≤ (m.restoreChunkIndex + 1).toNat) ∧
      (∀ e, r = .error e → ∃ e', e = .saveSnapshot e') := by
  by_cases hlast : snapshot.chunkHashes.length ≤ (m.restoreChunkIndex + 1).toNat
  · obtain ⟨r, store, hpass, hfiles, hr⟩ := outcome_passChunk_of_le faults hlast
    rw [hpass] at h
    cases h
    refine ⟨rfl, rfl, rfl, hfiles, fun _ => hlast, ?_⟩
    rintro e rfl
    rcases hr with ⟨-, e', he'⟩ | ⟨-, hok⟩
    · exact ⟨e', Except.error.inj he'⟩
    · cases hok
  · rw [outcome_passChunk_of_lt faults (not_le.mp hlast)] at h
    cases h
    exact ⟨rfl, rfl, rfl, fun _ _ _ => rfl, (fun hr => nomatch hr), fun e he => nomatch he⟩

theorem snd_outcome_conclude (d : RestoreDone) (m : SnapshotManager) :
    (outcome (conclude d) m).2 = m.endLocked := by
  obtain ⟨complete, err⟩ := d
  cases err with
  | some e => rfl
  | none => cases complete <;> rfl

/-- A refusal leaves the manager usable. -/
theorem Refuses.usable (h : m.Refuses done e m') (hm : m.Usable) : m'.Usable := by
  cases h with
  | unchanged e => exact hm
  | short hop hsnapshot data =>
    rcases hm with hidle | ⟨snapshot, hop, hsnap, hch, hdone, hlt⟩
    · rw [hidle.restoreSnapshot_eq] at hsnapshot
      cases hsnapshot
    · exact .inr ⟨snapshot, hop, hsnap, hch, hdone, hlt⟩
  | ended hd => exact .inl (idle_endLocked m)

/-- A restore that has accepted a chunk: it waits for the next one, or it ends, or it is left
without a channel and a chunk to wait for. -/
theorem Accepts.usable_iff {input : ChunkInput}
    (h : Accepts sha256 m input.polled input.writeFault chunk snapshot)
    (hrestoring : m.Restoring snapshot) :
    (outcome (restoreChunk sha256 chunk input) m).2.Usable ↔
      (snapshot.chunkHashes.length ≤ (m.restoreChunkIndex + 1).toNat →
        input.saveFaults.metadataFails = false) := by
  have hch : ¬(m.writeChunk snapshot chunk).chRestore.isNone = true := by
    rw [Option.isNone_iff_eq_none]
    exact Option.isSome_iff_ne_none.mp hrestoring.chRestore_isSome
  have hchDone : ¬(m.writeChunk snapshot chunk).chRestoreDone.isNone = true := by
    rw [Option.isNone_iff_eq_none]
    exact Option.isSome_iff_ne_none.mp hrestoring.chRestoreDone_isSome
  rw [restoreChunk, outcome_bind_ok h.outcome_offerChunk, outcome_bind_ok (outcome_get _),
    if_neg hch]
  by_cases hlast : snapshot.chunkHashes.length ≤ (m.restoreChunkIndex + 1).toNat
  · obtain ⟨r, store, hpass, -, ⟨hfails, e, rfl⟩ | ⟨hfails, rfl⟩⟩ :=
      outcome_passChunk_of_le (m := m.writeChunk snapshot chunk) input.saveFaults hlast
    · rw [outcome_bind_error hpass, hfails]
      refine iff_of_false ?_ (fun hcond => Bool.noConfusion (hcond hlast))
      rintro (hidle | ⟨other, hother⟩)
      · exact absurd (hrestoring.operation_eq.symm.trans hidle.operation_eq) (by decide)
      · exact absurd hother.chRestore_isSome Bool.false_ne_true
    · rw [outcome_bind_ok hpass, if_pos rfl, if_neg hchDone, snd_outcome_conclude]
      exact iff_of_true (.inl (idle_endLocked _)) fun _ => hfails
  · have hlt := not_le.mp hlast
    rw [outcome_bind_ok (outcome_passChunk_of_lt (m := m.writeChunk snapshot chunk)
      input.saveFaults hlt)]
    refine iff_of_true ?_ fun hcond => absurd hcond hlast
    exact .inr ⟨snapshot, hrestoring.operation_eq, hrestoring.restoreSnapshot_eq,
      hrestoring.chRestore_isSome, hrestoring.chRestoreDone_isSome, hlt⟩

/-- When `RestoreChunk` leaves the manager usable. -/
theorem usable_restoreChunk_iff (h : m.Usable) (input : ChunkInput) :
    (outcome (restoreChunk sha256 chunk input) m).2.Usable ↔
      ∀ snapshot, Accepts sha256 m input.polled input.writeFault chunk snapshot →
        snapshot.chunkHashes.length ≤ (m.restoreChunkIndex + 1).toNat →
        input.saveFaults.metadataFails = false := by
  rcases offerChunk_cases sha256 m input.polled input.writeFault chunk with
    ⟨snapshot, haccepts⟩ | ⟨e, m', hoffer, hrefuses⟩
  · have hunique : ∀ other, Accepts sha256 m input.polled input.writeFault chunk other →
        other = snapshot := fun other hother =>
      Option.some.inj (hother.restoreSnapshot_eq.symm.trans haccepts.restoreSnapshot_eq)
    have hrestoring : m.Restoring snapshot := by
      rcases h with hidle | ⟨other, hother⟩
      · exact absurd (hidle.operation_eq.symm.trans haccepts.operation_eq) (by decide)
      · obtain rfl := Option.some.inj
          (hother.restoreSnapshot_eq.symm.trans haccepts.restoreSnapshot_eq)
        exact hother
    rw [haccepts.usable_iff hrestoring]
    constructor
    · intro hcond other hother
      obtain rfl := hunique other hother
      exact hcond
    · exact fun hcond => hcond snapshot haccepts
  · rw [restoreChunk, outcome_bind_error hoffer]
    refine iff_of_true (hrefuses.usable h) fun snapshot haccepts => ?_
    rw [haccepts.outcome_offerChunk] at hoffer
    cases hoffer

/-- A `Restore` that fails changes nothing, unless it is its directory that cannot be made. -/
theorem usable_restore_iff (h : m.Usable) (snapshot : Snapshot) (input : RestoreInput) :
    (outcome (restore snapshot input) m).2.Usable ∧
      (∀ e, (outcome (restore snapshot input) m).1 = .error e →
        (outcome (restore snapshot input) m).2 = m) ↔
    (checkRestore snapshot = .ok () → m.operation = .none → input.mkdirAllFails = false) := by
  cases hcheck : checkRestore snapshot with
  | error e =>
    rw [outcome_restore_of_refused hcheck]
    exact iff_of_true ⟨h, fun _ _ => rfl⟩ fun hok => nomatch hok
  | ok u =>
    by_cases hnone : m.operation = .none
    · cases hfails : input.mkdirAllFails with
      | true =>
        rw [outcome_restore_of_mkdirAllFails hcheck hnone hfails]
        refine iff_of_false ?_ fun hcond => Bool.noConfusion (hcond rfl hnone)
        rintro ⟨-, hkeeps⟩
        have hop : Operation.restore = m.operation :=
          congrArg SnapshotManager.operation (hkeeps _ rfl)
        rw [hnone] at hop
        cases hop
      | false =>
        obtain ⟨m', hrestore, hrestoring, -⟩ := outcome_restore (m := m) hcheck hnone hfails
        rw [hrestore]
        exact iff_of_true ⟨.inr ⟨snapshot, hrestoring⟩, fun e he => nomatch he⟩ fun _ _ => rfl
    · rw [outcome_restore_of_busy hcheck hnone]
      exact iff_of_true ⟨h, fun _ _ => rfl⟩ fun _ hop => absurd hop hnone

end

end SnapshotManager

/-! ### Runs -/

/-- A public call of the manager, with what it depends on. -/
inductive ManagerCall
  | create (height : UInt64) (input : SnapshotManager.CreateInput)
  | prune (order : Traversal UInt64 Bool) (retain : UInt32) (fault : SnapshotManager.StoreFault)
  | restore (snapshot : Snapshot) (input : SnapshotManager.RestoreInput)
  | restoreChunk (chunk : Bytes) (input : SnapshotManager.ChunkInput)
  | restoreLocalSnapshot (height : UInt64) (format : UInt32) (loadFault : Option SnapshotStoreError)
      (restored : Option RestoreError)

namespace ManagerCall

open SnapshotManager (Usable Accepts checkRestore)

/-- Performs a call; only whether it succeeds is kept of its answer. -/
def perform (sha256 : Bytes → Bytes) : ManagerCall → EStateM ManagerError SnapshotManager Unit
  | .create height input => do
    let _ ← SnapshotManager.create sha256 height input
    return
  | .prune order retain fault => do
    let _ ← SnapshotManager.prune order retain fault
    return
  | .restore snapshot input => SnapshotManager.restore snapshot input
  | .restoreChunk chunk input => do
    let _ ← SnapshotManager.restoreChunk sha256 chunk input
    return
  | .restoreLocalSnapshot height format loadFault restored =>
    SnapshotManager.restoreLocalSnapshot height format loadFault restored

/-- A `Restore` that returns an error leaves the manager as it was. -/
def KeepsOnError (sha256 : Bytes → Bytes) (m : SnapshotManager) : ManagerCall → Prop
  | .restore snapshot input => ∀ e,
      (outcome (perform sha256 (.restore snapshot input)) m).1 = .error e →
        (outcome (perform sha256 (.restore snapshot input)) m).2 = m
  | _ => True

/-- What has to be met by a call, in the state that it is made in: a `Restore` that passes its
checks when nothing is in progress can make its directory, and a `RestoreChunk` that accepts the
last chunk can save the metadata. -/
def Meets (sha256 : Bytes → Bytes) (m : SnapshotManager) : ManagerCall → Prop
  | .restore snapshot input =>
    checkRestore snapshot = .ok () → m.operation = .none → input.mkdirAllFails = false
  | .restoreChunk chunk input => ∀ snapshot,
      Accepts sha256 m input.polled input.writeFault chunk snapshot →
        snapshot.chunkHashes.length ≤ (m.restoreChunkIndex + 1).toNat →
        input.saveFaults.metadataFails = false
  | _ => True

/-- **One call.** -/
theorem usable_iff (sha256 : Bytes → Bytes) {m : SnapshotManager} (h : m.Usable)
    (call : ManagerCall) :
    (outcome (call.perform sha256) m).2.Usable ∧ call.KeepsOnError sha256 m ↔
      call.Meets sha256 m := by
  cases call with
  | create height input | prune order retain fault =>
    rw [perform, snd_outcome_bind fun _ => readOnly_pure _]
    exact iff_of_true ⟨SnapshotManager.usable_bracket (by decide) _ h, trivial⟩ trivial
  | restore snapshot input => exact SnapshotManager.usable_restore_iff h snapshot input
  | restoreChunk chunk input =>
    rw [perform, snd_outcome_bind fun _ => readOnly_pure _]
    exact (and_iff_left trivial).trans (SnapshotManager.usable_restoreChunk_iff h input)
  | restoreLocalSnapshot height format loadFault restored =>
    refine iff_of_true ⟨?_, trivial⟩ trivial
    cases loadFault with
    | some e => exact h
    | none =>
      rw [perform, SnapshotManager.restoreLocalSnapshot.eq_def]
      dsimp only
      rw [outcome_bind_ok (outcome_get m)]
      split_ifs
      · exact h
      · exact SnapshotManager.usable_bracket (by decide) _ h

end ManagerCall

namespace SnapshotManager

/-- The manager after a list of calls, from a new one. -/
def afterCalls (sha256 : Bytes → Bytes) (store : SnapshotStore) (calls : List ManagerCall) :
    SnapshotManager :=
  (outcomes (ManagerCall.perform sha256) calls (newManager store)).2

/-- **The manager stays usable**, and a `Restore` that fails changes nothing, exactly if each call
of the run meets its condition in the state it is made in. -/
theorem staysUsable_iff (sha256 : Bytes → Bytes) (store : SnapshotStore)
    (calls : List ManagerCall) :
    (∀ before call, before ++ [call] <+: calls →
      (afterCalls sha256 store (before ++ [call])).Usable ∧
        call.KeepsOnError sha256 (afterCalls sha256 store before)) ↔
    ∀ before call, before ++ [call] <+: calls →
      call.Meets sha256 (afterCalls sha256 store before) := by
  have hstart : (afterCalls sha256 store []).Usable := .inl (idle_newManager store)
  have hnext : ∀ before call, afterCalls sha256 store (before ++ [call]) =
      (outcome (ManagerCall.perform sha256 call) (afterCalls sha256 store before)).2 :=
    fun before call => snd_outcomes_concat _ before call _
  constructor
  · intro h before call hbefore
    have husable : (afterCalls sha256 store before).Usable := by
      rcases List.eq_nil_or_concat before with rfl | ⟨earlier, last, rfl⟩
      · exact hstart
      · rw [List.concat_eq_append] at hbefore ⊢
        exact (h earlier last ((List.prefix_append _ _).trans hbefore)).1
    have hcall := h before call hbefore
    rw [hnext] at hcall
    exact (call.usable_iff sha256 husable).mp hcall
  · intro h before call hbefore
    have husable : ∀ earlier, earlier <+: calls → (afterCalls sha256 store earlier).Usable := by
      intro earlier
      induction earlier using List.reverseRecOn with
      | nil => exact fun _ => hstart
      | append_singleton earlier last ih =>
        intro hearlier
        rw [hnext]
        exact ((last.usable_iff sha256 (ih ((List.prefix_append _ _).trans hearlier))).mpr
          (h earlier last hearlier)).1
    rw [hnext]
    exact (call.usable_iff sha256 (husable before ((List.prefix_append _ _).trans hbefore))).mpr
      (h before call hbefore)

/-- A snapshot with one empty chunk, with a hash that is the content. -/
def oneChunk : Snapshot := ⟨1, 3, 1, [], [[]]⟩

/-- `os.MkdirAll` fails: the call returns an error, and a restore without a snapshot and channels is
in progress. -/
theorem staysUsable_fails :
    ∃ e, (outcome (ManagerCall.perform id (.restore oneChunk ⟨0, 1, true⟩))
        (newManager SnapshotStore.fresh)).1 = .error e ∧
      ¬(afterCalls id SnapshotStore.fresh [.restore oneChunk ⟨0, 1, true⟩]).Usable ∧
      (afterCalls id SnapshotStore.fresh [.restore oneChunk ⟨0, 1, true⟩]).operation ≠
        (newManager SnapshotStore.fresh).operation := by
  refine ⟨_, rfl, ?_, by decide⟩
  rintro (hidle | ⟨snapshot, hrestoring⟩)
  · exact absurd hidle.operation_eq (by decide)
  · exact absurd hrestoring.chRestore_isSome Bool.false_ne_true

end SnapshotManager

end MelodiaStore
