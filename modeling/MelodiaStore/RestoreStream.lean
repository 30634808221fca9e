import MelodiaStore.SnapshotManager

/-!
# The Stream of a Chunked Restore

A restore that has begun runs in three processes. The caller of `RestoreChunk` checks each chunk,
writes it to its file and sends its number; the goroutine of `loadChunkStream` opens the files of
the numbers and sends them on; the restore goroutine reads the files, one after the other, and
reports how the restore ended. `RestoreSystem.Step` has the steps of all three: any of them may take
the next one, as far as the channels let it.

The caller holds the mutex of the manager during a call, and its steps are cut where it uses a
channel. The file system and the database may fail. What the restore goroutine makes of the bytes is
left open: it reads with any buffers, and may stop at any time.

## Main results

* `restore_delivers`: in every interleaving, the bytes that are read are a front of the accepted
  chunks, whose hashes are those of the snapshot; a rejected chunk leaves the stream alone; and
  `RestoreChunk` returns `true` only behind the last chunk, when the restore has succeeded.
* `restore_delivers_fails`: a snapshot with `2 ^ 32 + 1` hashes.
-/

namespace MelodiaStore

open SnapshotManager
  (checkRestore earlyError newManager passChunk_spec refuses_of_offerChunk restore
  restoring_of_restore writeChunk)

/-! ### Consecutive numbers -/

/-- The numbers from `a` on and below `b`, as words of 32 bits. -/
def numbers (a b : ℕ) : List UInt32 := (List.range' a (b - a)).map UInt32.ofNat

variable {a b : ℕ}

theorem numbers_succ_right (h : a ≤ b) : numbers a (b + 1) = numbers a b ++ [UInt32.ofNat b] := by
  have hlength : b + 1 - a = b - a + 1 := by omega
  have hlast : a + 1 * (b - a) = b := by omega
  rw [numbers, hlength, List.range'_concat, List.map_append, hlast]
  rfl

/-- The first of the numbers. -/
theorem numbers_eq_cons {n : UInt32} {l : List UInt32} (h : numbers a b = n :: l) :
    a < b ∧ n = UInt32.ofNat a ∧ l = numbers (a + 1) b := by
  by_cases hlt : a < b
  · have hlength : b - a = b - (a + 1) + 1 := by omega
    rw [numbers, hlength, List.range'_succ, List.map_cons] at h
    obtain ⟨hn, hl⟩ := List.cons.inj h
    exact ⟨hlt, hn.symm, hl.symm⟩
  · have hlength : b - a = 0 := by omega
    rw [numbers, hlength] at h
    cases h

/-! ### The processes -/

/-- A buffered channel: what was sent and not received, and whether it is closed. -/
structure GoChan (α : Type) where
  queue : List α
  closed : Bool

/-- `chunkBufferSize`. -/
def chunkBufferSize : ℕ := 4

/-- `chunkIDBufferSize`. -/
def chunkIDBufferSize : ℕ := 1024

/-- Where the caller of `RestoreChunk` is in its call. -/
inductive Caller
  | idle
  | sending (chunk : Bytes) (snapshot : Snapshot)
  | passing (chunk : Bytes) (snapshot : Snapshot)
  | awaiting (chunk : Bytes)

/-- Where the goroutine of `loadChunkStream` is in its loop. -/
inductive Loader
  | receiving
  | sending (chunkID : UInt32)
  | ended

/-- The file that the loader has opened and not sent. -/
def Loader.held : Loader → List UInt32
  | .receiving => []
  | .sending chunkID => [chunkID]
  | .ended => []

/-- Where the restore goroutine is: it makes the stream reader, reads, closes the stream reader, or
has reported. -/
inductive RestorePhase
  | opening
  | reading
  | closing (err : Option RestoreError)
  | reported

/-- The restore goroutine may still read. -/
def RestorePhase.Active : RestorePhase → Prop
  | .opening => True
  | .reading => True
  | .closing _ => False
  | .reported => False

theorem RestorePhase.Active.ne_reported {phase : RestorePhase} (h : phase.Active) :
    phase ≠ .reported := by
  rintro rfl
  exact h

/-- The restore goroutine: the file it reads and the place in it, and all the bytes it has read. -/
structure Restorer where
  phase : RestorePhase
  current : Option (UInt32 × ℕ)
  read : Bytes

/-- The three processes, and what they share. `chRestoreDone` is received from at most once, so what
was reported stays in `done`. `accepted` are the chunks that were accepted, and `answers` the calls
of `RestoreChunk` that have returned. -/
structure RestoreSystem where
  manager : SnapshotManager
  chunkIDs : GoChan UInt32
  chunks : GoChan UInt32
  done : Option RestoreDone
  caller : Caller
  loader : Loader
  restorer : Restorer
  accepted : List Bytes
  answers : List (Bytes × Except ManagerError Bool)

namespace RestoreSystem

/-- The processes when `Restore` has returned. -/
def start (m : SnapshotManager) : RestoreSystem where
  manager := m
  chunkIDs := ⟨[], false⟩
  chunks := ⟨[], false⟩
  done := none
  caller := .idle
  loader := .receiving
  restorer := ⟨.opening, none, []⟩
  accepted := []
  answers := []

/-- The channel of the numbers is closed when the manager drops it. -/
def drop (σ : RestoreSystem) (m : SnapshotManager) : GoChan UInt32 :=
  { σ.chunkIDs with
    closed := σ.chunkIDs.closed || σ.manager.chRestore.isSome && m.chRestore.isNone }

/-- What is in the file of a number. -/
def file (σ : RestoreSystem) (snapshot : Snapshot) (chunkID : UInt32) : Option Bytes :=
  σ.manager.store.loadChunk snapshot.height snapshot.format chunkID

open SnapshotManager (offerChunk passChunk conclude)

/-- A step of one of the processes, in the restore of `snapshot`. -/
inductive Step (sha256 : Bytes → Bytes) (snapshot : Snapshot) : RestoreSystem → RestoreSystem → Prop
  /-- `RestoreChunk` returns an error before the chunk is sent. -/
  | refuse {σ : RestoreSystem} {chunk : Bytes} {fault : Option SnapshotManager.WriteFault}
      {e : ManagerError} {m : SnapshotManager} (hcaller : σ.caller = .idle)
      (houtcome : outcome (offerChunk sha256 σ.done fault chunk) σ.manager = (.error e, m)) :
      Step sha256 snapshot σ { σ with
        manager := m, chunkIDs := σ.drop m, answers := σ.answers ++ [(chunk, .error e)] }
  /-- `RestoreChunk` accepts the chunk and saves it. -/
  | accept {σ : RestoreSystem} {chunk : Bytes} {fault : Option SnapshotManager.WriteFault}
      {snap : Snapshot} {m : SnapshotManager} (hcaller : σ.caller = .idle)
      (houtcome : outcome (offerChunk sha256 σ.done fault chunk) σ.manager = (.ok snap, m)) :
      Step sha256 snapshot σ { σ with
        manager := m, caller := .sending chunk snap, accepted := σ.accepted ++ [chunk] }
  /-- `RestoreChunk` sends the number of the chunk, when there is room for it. -/
  | send {σ : RestoreSystem} {chunk : Bytes} {snap : Snapshot}
      (hcaller : σ.caller = .sending chunk snap) (hopen : σ.manager.chRestore.isSome)
      (hroom : σ.chunkIDs.queue.length < chunkIDBufferSize) :
      Step sha256 snapshot σ { σ with
        chunkIDs := { σ.chunkIDs with queue := σ.chunkIDs.queue ++ [σ.manager.restoreChunkIndex] }
        caller := .passing chunk snap }
  /-- `RestoreChunk` returns, and waits for more chunks. -/
  | passNext {σ : RestoreSystem} {chunk : Bytes} {snap : Snapshot} {faults : SaveFaults}
      {m : SnapshotManager} (hcaller : σ.caller = .passing chunk snap)
      (houtcome : outcome (passChunk faults snap) σ.manager = (.ok false, m)) :
      Step sha256 snapshot σ { σ with
        manager := m, caller := .idle, answers := σ.answers ++ [(chunk, .ok false)] }
  /-- `RestoreChunk` returns the error of saving the metadata behind the last chunk. -/
  | passFails {σ : RestoreSystem} {chunk : Bytes} {snap : Snapshot} {faults : SaveFaults}
      {e : ManagerError} {m : SnapshotManager} (hcaller : σ.caller = .passing chunk snap)
      (houtcome : outcome (passChunk faults snap) σ.manager = (.error e, m)) :
      Step sha256 snapshot σ { σ with
        manager := m, chunkIDs := σ.drop m, caller := .idle
        answers := σ.answers ++ [(chunk, .error e)] }
  /-- `RestoreChunk` waits for the end of the restore, behind the last chunk. -/
  | passLast {σ : RestoreSystem} {chunk : Bytes} {snap : Snapshot} {faults : SaveFaults}
      {m : SnapshotManager} (hcaller : σ.caller = .passing chunk snap)
      (houtcome : outcome (passChunk faults snap) σ.manager = (.ok true, m)) :
      Step sha256 snapshot σ { σ with
        manager := m, chunkIDs := σ.drop m, caller := .awaiting chunk }
  /-- `RestoreChunk` receives the report, and returns. -/
  | conclude {σ : RestoreSystem} {chunk : Bytes} {d : RestoreDone} {r : Except ManagerError Bool}
      {m : SnapshotManager} (hcaller : σ.caller = .awaiting chunk) (hdone : σ.done = some d)
      (houtcome : outcome (conclude d) σ.manager = (r, m)) :
      Step sha256 snapshot σ { σ with
        manager := m, caller := .idle, answers := σ.answers ++ [(chunk, r)] }
  /-- The loader receives a number, and opens its file. -/
  | load {σ : RestoreSystem} {chunkID : UInt32} {rest : List UInt32}
      (hloader : σ.loader = .receiving) (hqueue : σ.chunkIDs.queue = chunkID :: rest)
      (hfile : (σ.file snapshot chunkID).isSome) :
      Step sha256 snapshot σ { σ with
        chunkIDs := { σ.chunkIDs with queue := rest }, loader := .sending chunkID }
  /-- The loader receives a number, and cannot open its file. -/
  | loadFails {σ : RestoreSystem} {chunkID : UInt32} {rest : List UInt32}
      (hloader : σ.loader = .receiving) (hqueue : σ.chunkIDs.queue = chunkID :: rest) :
      Step sha256 snapshot σ { σ with
        chunkIDs := { σ.chunkIDs with queue := rest }
        chunks := { σ.chunks with closed := true }
        loader := .ended }
  /-- The loader sends the file, when there is room for it. -/
  | forward {σ : RestoreSystem} {chunkID : UInt32} (hloader : σ.loader = .sending chunkID)
      (hroom : σ.chunks.queue.length < chunkBufferSize) :
      Step sha256 snapshot σ { σ with
        chunks := { σ.chunks with queue := σ.chunks.queue ++ [chunkID] }, loader := .receiving }
  /-- The loader ends, when there are no more numbers. -/
  | loadEnds {σ : RestoreSystem} (hloader : σ.loader = .receiving)
      (hqueue : σ.chunkIDs.queue = []) (hclosed : σ.chunkIDs.closed = true) :
      Step sha256 snapshot σ { σ with
        chunks := { σ.chunks with closed := true }, loader := .ended }
  /-- The restore goroutine takes the next file. -/
  | next {σ : RestoreSystem} {chunkID : UInt32} {rest : List UInt32}
      (hactive : σ.restorer.phase.Active) (hcurrent : σ.restorer.current = none)
      (hqueue : σ.chunks.queue = chunkID :: rest) :
      Step sha256 snapshot σ { σ with
        chunks := { σ.chunks with queue := rest }
        restorer := { σ.restorer with current := some (chunkID, 0) } }
  /-- The restore goroutine reads from its file. -/
  | read {σ : RestoreSystem} {chunkID : UInt32} {offset : ℕ} {data : Bytes} (size : ℕ)
      (hactive : σ.restorer.phase.Active) (hcurrent : σ.restorer.current = some (chunkID, offset))
      (hfile : σ.file snapshot chunkID = some data) :
      Step sha256 snapshot σ { σ with
        restorer := { σ.restorer with
          current := some (chunkID, offset + ((data.drop offset).take size).length)
          read := σ.restorer.read ++ (data.drop offset).take size } }
  /-- The restore goroutine closes a file that is at its end. -/
  | endOfFile {σ : RestoreSystem} {chunkID : UInt32} {offset : ℕ} {data : Bytes}
      (hactive : σ.restorer.phase.Active) (hcurrent : σ.restorer.current = some (chunkID, offset))
      (hfile : σ.file snapshot chunkID = some data) (hend : data.length ≤ offset) :
      Step sha256 snapshot σ { σ with restorer := { σ.restorer with current := none } }
  /-- The stream reader is there. -/
  | opened {σ : RestoreSystem} (hphase : σ.restorer.phase = .opening) :
      Step sha256 snapshot σ { σ with restorer := { σ.restorer with phase := .reading } }
  /-- The directory or the stream reader cannot be made, which is reported at once. -/
  | openFails {σ : RestoreSystem} (hphase : σ.restorer.phase = .opening) (e : RestoreError) :
      Step sha256 snapshot σ { σ with
        done := some ⟨false, some e⟩
        restorer := { σ.restorer with phase := .reported } }
  /-- The restore ends, and the stream reader is closed. -/
  | finish {σ : RestoreSystem} (hphase : σ.restorer.phase = .reading) (err : Option RestoreError) :
      Step sha256 snapshot σ { σ with
        restorer := { σ.restorer with phase := .closing err, current := none } }
  /-- Closing the stream reader closes the files that are left. -/
  | drain {σ : RestoreSystem} {err : Option RestoreError} {chunkID : UInt32} {rest : List UInt32}
      (hphase : σ.restorer.phase = .closing err) (hqueue : σ.chunks.queue = chunkID :: rest) :
      Step sha256 snapshot σ { σ with chunks := { σ.chunks with queue := rest } }
  /-- The restore goroutine reports, when the channel of the files is closed and empty. -/
  | report {σ : RestoreSystem} {err : Option RestoreError}
      (hphase : σ.restorer.phase = .closing err) (hqueue : σ.chunks.queue = [])
      (hclosed : σ.chunks.closed = true) :
      Step sha256 snapshot σ { σ with
        done := some ⟨err.isNone, err⟩
        restorer := { σ.restorer with phase := .reported } }

/-! ### What all steps keep -/

/-- What was read when the file of chunk `r - 1` is open, or when the first `r` files are closed. -/
def ReadUpTo (accepted : List Bytes) (r : ℕ) (read : Bytes) : Option (UInt32 × ℕ) → Prop
  | none => read = (accepted.take r).flatten
  | some (chunkID, offset) => ∃ i c, r = i + 1 ∧ chunkID = UInt32.ofNat i ∧
      accepted[i]? = some c ∧ offset ≤ c.length ∧
      read = (accepted.take i).flatten ++ c.take offset

/-- The chunks on their way: `r` files were taken by the restore goroutine, `j` numbers by the
loader, and `k` numbers were sent. -/
structure Flow (σ : RestoreSystem) (r j k : ℕ) : Prop where
  taken_le : r ≤ j
  loaded_le : j ≤ k
  sent_le : k ≤ σ.accepted.length
  chunks_eq : σ.chunks.queue ++ σ.loader.held = numbers r j
  chunkIDs_eq : σ.loader ≠ .ended → σ.chunkIDs.queue = numbers j k
  upTo : σ.restorer.phase.Active → ReadUpTo σ.accepted r σ.restorer.read σ.restorer.current
  front : σ.restorer.read <+: σ.accepted.flatten

/-- Where the caller is, when `k` numbers were sent. -/
def CallerAt (snapshot : Snapshot) (σ : RestoreSystem) (k : ℕ) : Caller → Prop
  | .idle => k = σ.accepted.length ∧
      (σ.manager.operation = .restore → σ.manager.restoreChunkIndex = UInt32.ofNat k)
  | .sending chunk snap => snap = snapshot ∧ σ.accepted.length = k + 1 ∧
      σ.manager.restoreChunkIndex = UInt32.ofNat k ∧ σ.accepted.getLast? = some chunk
  | .passing chunk snap => snap = snapshot ∧ σ.accepted.length = k ∧
      σ.manager.restoreChunkIndex + 1 = UInt32.ofNat k ∧ σ.accepted.getLast? = some chunk
  | .awaiting chunk => σ.accepted.length = k ∧ k = snapshot.chunkHashes.length ∧
      σ.accepted.getLast? = some chunk

/-- The books of the manager: the hashes and the files of the accepted chunks, the index, and the
report. -/
structure Books (sha256 : Bytes → Bytes) (snapshot : Snapshot) (σ : RestoreSystem) (k : ℕ) :
    Prop where
  hashes : σ.accepted.map sha256 <+: snapshot.chunkHashes
  files : ∀ i c, σ.accepted[i]? = some c → σ.file snapshot (UInt32.ofNat i) = some c
  restoring : σ.manager.operation = .restore → σ.manager.restoreSnapshot = some snapshot
  callerAt : CallerAt snapshot σ k σ.caller
  reported : ∀ d, σ.done = some d → σ.restorer.phase = .reported

/-- What holds in every state of a restore. -/
def Sound (sha256 : Bytes → Bytes) (snapshot : Snapshot) (σ : RestoreSystem) : Prop :=
  ∃ r j k, σ.Flow r j k ∧ σ.Books sha256 snapshot k

section

variable {accepted : List Bytes} {r : ℕ} {read : Bytes} {current : Option (UInt32 × ℕ)}

/-- One more chunk does not matter for what was read. -/
theorem ReadUpTo.concat (h : ReadUpTo accepted r read current) (hr : r ≤ accepted.length)
    (chunk : Bytes) : ReadUpTo (accepted ++ [chunk]) r read current := by
  cases current with
  | none =>
    rw [ReadUpTo] at h ⊢
    rw [List.take_append_of_le_length hr]
    exact h
  | some place =>
    obtain ⟨i, c, rfl, hid, hc, hoffset, hread⟩ := h
    refine ⟨i, c, rfl, hid, ?_, hoffset, ?_⟩
    · rw [List.getElem?_append_left (by omega)]
      exact hc
    · rw [List.take_append_of_le_length (by omega)]
      exact hread

/-- What was read is a front of the accepted chunks. -/
theorem ReadUpTo.front (h : ReadUpTo accepted r read current) : read <+: accepted.flatten := by
  cases current with
  | none =>
    rw [ReadUpTo] at h
    refine ⟨(accepted.drop r).flatten, ?_⟩
    rw [h, ← List.flatten_append, List.take_append_drop]
  | some place =>
    obtain ⟨i, c, rfl, -, hc, -, hread⟩ := h
    have hsplit : accepted = accepted.take i ++ c :: accepted.drop (i + 1) := by
      obtain ⟨hi, rfl⟩ := List.getElem?_eq_some_iff.mp hc
      rw [List.getElem_cons_drop, List.take_append_drop]
    refine ⟨c.drop place.2 ++ (accepted.drop (i + 1)).flatten, ?_⟩
    rw [hread, List.append_assoc, ← List.append_assoc (c.take place.2), List.take_append_drop]
    conv_rhs => rw [hsplit]
    rw [List.flatten_append, List.flatten_cons]

end

section

variable {sha256 : Bytes → Bytes} {snapshot : Snapshot} {σ σ' : RestoreSystem} {r j k : ℕ}
  {chunk : Bytes} {m : SnapshotManager} {chunkID : UInt32} {rest : List UInt32}

/-- Steps that move no chunk. -/
theorem Flow.frame (h : σ.Flow r j k) (haccepted : σ'.accepted = σ.accepted)
    (hchunks : σ'.chunks.queue = σ.chunks.queue) (hloader : σ'.loader = σ.loader)
    (hchunkIDs : σ'.chunkIDs.queue = σ.chunkIDs.queue) (hrestorer : σ'.restorer = σ.restorer) :
    σ'.Flow r j k := by
  obtain ⟨hr, hj, hk, hq, hids, hupTo, hfront⟩ := h
  refine ⟨hr, hj, ?_, ?_, ?_, ?_, ?_⟩
  · rwa [haccepted]
  · rwa [hchunks, hloader]
  · rwa [hloader, hchunkIDs]
  · rwa [hrestorer, haccepted]
  · rwa [hrestorer, haccepted]

section

variable (h : σ.Books sha256 snapshot k)
include h

/-- Steps of the other two processes do not touch the books. -/
theorem Books.frame (hmanager : σ'.manager = σ.manager) (haccepted : σ'.accepted = σ.accepted)
    (hcaller : σ'.caller = σ.caller)
    (hreported : ∀ d, σ'.done = some d → σ'.restorer.phase = .reported) :
    σ'.Books sha256 snapshot k := by
  obtain ⟨hhashes, hfiles, hrestoring, hat, -⟩ := h
  refine ⟨?_, ?_, ?_, ?_, hreported⟩
  · rwa [haccepted]
  · intro i c hc
    rw [haccepted] at hc
    rw [file, hmanager]
    exact hfiles i c hc
  · rwa [hmanager]
  · rw [hcaller]
    revert hat
    cases σ.caller <;> simp only [CallerAt, hmanager, haccepted] <;> exact id

/-- A restore goroutine that is still at work has not reported. -/
theorem Books.not_done (hphase : σ.restorer.phase ≠ .reported) {d : RestoreDone}
    (hd : σ.done = some d) {P : Prop} : P :=
  absurd (h.reported d hd) hphase

/-- The accepted chunks can be counted. -/
theorem Books.length_le : σ.accepted.length ≤ snapshot.chunkHashes.length := by
  have hle := h.hashes.length_le
  rwa [List.length_map] at hle

/-- Writing the file of the next chunk does not touch those of the accepted ones. -/
theorem Books.file_writeChunk (hlength : snapshot.chunkHashes.length < 2 ^ 32)
    (hindex : σ.manager.restoreChunkIndex = UInt32.ofNat σ.accepted.length) (data : Bytes) {i : ℕ}
    (hi : i < σ.accepted.length) :
    (σ.manager.writeChunk snapshot data).store.loadChunk snapshot.height snapshot.format
      (UInt32.ofNat i) = σ.file snapshot (UInt32.ofNat i) := by
  have hcount : σ.accepted.length < 2 ^ 32 := Nat.lt_of_le_of_lt h.length_le hlength
  rw [writeChunk, SnapshotStore.loadChunk_writeChunk, if_neg, file]
  rintro ⟨-, -, heq⟩
  rw [hindex] at heq
  exact ofNat_ne_of_lt hi hcount heq

end

/-- A chunk that is not accepted leaves the restore as it is, or ends it. -/
theorem Sound.refuse (h : σ.Sound sha256 snapshot) (hlength : snapshot.chunkHashes.length < 2 ^ 32)
    {e : ManagerError} (hcaller : σ.caller = .idle) (hrefuses : σ.manager.Refuses σ.done e m) :
    Sound sha256 snapshot { σ with
      manager := m, chunkIDs := σ.drop m, answers := σ.answers ++ [(chunk, .error e)] } := by
  obtain ⟨r, j, k, hflow, hbooks⟩ := h
  refine ⟨r, j, k, hflow.frame rfl rfl rfl rfl rfl, ?_⟩
  have hat := hbooks.callerAt
  rw [hcaller] at hat
  cases hrefuses with
  | unchanged e =>
    exact ⟨hbooks.hashes, hbooks.files, hbooks.restoring, hbooks.callerAt, hbooks.reported⟩
  | short hop hsnapshot data =>
    obtain rfl := Option.some.inj (hsnapshot.symm.trans (hbooks.restoring hop))
    refine ⟨hbooks.hashes, ?_, hbooks.restoring, ?_, hbooks.reported⟩
    · intro i c hc
      have hi := (List.getElem?_eq_some_iff.mp hc).1
      exact (hbooks.file_writeChunk hlength (hat.1 ▸ hat.2 hop) data hi).trans
        (hbooks.files i c hc)
    · rw [hcaller]
      exact hat
  | ended hd =>
    refine ⟨hbooks.hashes, hbooks.files, (fun hop => nomatch hop), ?_, hbooks.reported⟩
    rw [hcaller]
    exact ⟨hat.1, fun hop => nomatch hop⟩

/-- The next hash. -/
theorem isPrefix_concat {α : Type} {l l' : List α} {a : α} (h : l <+: l')
    (ha : l'[l.length]? = some a) : l ++ [a] <+: l' := by
  obtain ⟨t, rfl⟩ := h
  rw [List.getElem?_append_right (Nat.le_refl _), Nat.sub_self] at ha
  cases t with
  | nil => cases ha
  | cons b t =>
    cases ha
    exact ⟨t, by rw [List.append_assoc]; rfl⟩

section

variable (h : σ.Sound sha256 snapshot)
include h

variable {snap : Snapshot} {offset : ℕ} {data : Bytes}

/-- A chunk that is accepted is the next one of the snapshot. -/
theorem Sound.accept (hlength : snapshot.chunkHashes.length < 2 ^ 32)
    {fault : Option SnapshotManager.WriteFault} (hcaller : σ.caller = .idle)
    (haccepts : SnapshotManager.Accepts sha256 σ.manager σ.done fault chunk snap) :
    Sound sha256 snapshot { σ with
      manager := σ.manager.writeChunk snap chunk
      caller := .sending chunk snap
      accepted := σ.accepted ++ [chunk] } := by
  obtain ⟨r, j, k, hflow, hbooks⟩ := h
  have hat := hbooks.callerAt
  rw [hcaller] at hat
  obtain ⟨hop, hsnap, hhash, -, -⟩ := haccepts
  obtain rfl := Option.some.inj (hsnap.symm.trans (hbooks.restoring hop))
  have hcount : σ.accepted.length < 2 ^ 32 := Nat.lt_of_le_of_lt hbooks.length_le hlength
  have hindex : σ.manager.restoreChunkIndex = UInt32.ofNat σ.accepted.length := hat.1 ▸ hat.2 hop
  rw [hindex, UInt32.toNat_ofNat_of_lt' hcount] at hhash
  refine ⟨r, j, k, ?_, ?_⟩
  · obtain ⟨hr, hj, hk, hq, hids, hupTo, hfront⟩ := hflow
    refine ⟨hr, hj, ?_, hq, hids, ?_, ?_⟩
    · rw [List.length_append]
      omega
    · exact fun hactive => (hupTo hactive).concat (by omega) chunk
    · rw [List.flatten_append]
      exact hfront.trans (List.prefix_append _ _)
  · refine ⟨?_, ?_, hbooks.restoring, ⟨rfl, ?_, ?_, ?_⟩, hbooks.reported⟩
    · rw [List.map_append]
      exact isPrefix_concat hbooks.hashes (by rwa [List.length_map])
    · intro i c hc
      by_cases hi : i < σ.accepted.length
      · rw [List.getElem?_append_left hi] at hc
        exact (hbooks.file_writeChunk hlength hindex chunk hi).trans (hbooks.files i c hc)
      · have hlast : i = σ.accepted.length ∧ c = chunk := by
          have hlt := (List.getElem?_eq_some_iff.mp hc).1
          rw [List.length_append, List.length_singleton] at hlt
          obtain rfl : i = σ.accepted.length := by omega
          rw [List.getElem?_concat_length] at hc
          exact ⟨rfl, (Option.some.inj hc).symm⟩
        rw [hlast.1, hlast.2, file, writeChunk,
          SnapshotStore.loadChunk_writeChunk, if_pos ⟨rfl, rfl, hindex.symm⟩]
    · rw [List.length_append, hat.1]
      rfl
    · exact hat.2 hop
    · exact List.getLast?_concat

/-- The number of the chunk is sent. -/
theorem Sound.send (hcaller : σ.caller = .sending chunk snap) :
    Sound sha256 snapshot { σ with
      chunkIDs := { σ.chunkIDs with queue := σ.chunkIDs.queue ++ [σ.manager.restoreChunkIndex] }
      caller := .passing chunk snap } := by
  obtain ⟨r, j, k, hflow, hbooks⟩ := h
  have hat := hbooks.callerAt
  rw [hcaller] at hat
  obtain ⟨hsnap, hlength, hindex, hlast⟩ := hat
  refine ⟨r, j, k + 1, ?_, ?_⟩
  · obtain ⟨hr, hj, hk, hq, hids, hupTo, hfront⟩ := hflow
    refine ⟨hr, by omega, Nat.le_of_eq hlength.symm, hq, ?_, hupTo, hfront⟩
    intro hloader
    rw [hids hloader, hindex, numbers_succ_right hj]
  · refine ⟨hbooks.hashes, hbooks.files, hbooks.restoring, ⟨hsnap, hlength, ?_, hlast⟩,
      hbooks.reported⟩
    rw [hindex, UInt32.ofNat_add]
    rfl

/-- Behind the send the index is counted on. -/
theorem Sound.pass (hlength : snapshot.chunkHashes.length < 2 ^ 32) {faults : SaveFaults}
    {r : Except ManagerError Bool} (hcaller : σ.caller = .passing chunk snap)
    (houtcome : outcome (passChunk faults snap) σ.manager = (r, m)) (hσ' : σ'.manager = m)
    (haccepted : σ'.accepted = σ.accepted) (hchunks : σ'.chunks.queue = σ.chunks.queue)
    (hloader : σ'.loader = σ.loader) (hchunkIDs : σ'.chunkIDs.queue = σ.chunkIDs.queue)
    (hrestorer : σ'.restorer = σ.restorer) (hdone : σ'.done = σ.done)
    (hcaller' : σ'.caller = .idle ∨ r = .ok true ∧ σ'.caller = .awaiting chunk) :
    Sound sha256 snapshot σ' := by
  obtain ⟨n, j, k, hflow, hbooks⟩ := h
  have hat := hbooks.callerAt
  rw [hcaller] at hat
  obtain ⟨rfl, hcount, hindex, hlast⟩ := hat
  obtain ⟨hop, hsnapshot, hindex', hfiles, htrue, -⟩ := passChunk_spec houtcome
  refine ⟨n, j, k, hflow.frame haccepted hchunks hloader hchunkIDs hrestorer, ?_⟩
  refine ⟨haccepted ▸ hbooks.hashes, ?_, ?_, ?_, ?_⟩
  · intro i c hc
    rw [haccepted] at hc
    rw [file, hσ', hfiles]
    exact hbooks.files i c hc
  · rw [hσ', hop, hsnapshot]
    exact hbooks.restoring
  · rcases hcaller' with hidle | ⟨hr, hawaiting⟩
    · rw [hidle]
      exact ⟨haccepted ▸ hcount.symm, fun _ => by rw [hσ', hindex', hindex]⟩
    · have hle := hbooks.length_le
      have hend := htrue hr
      have hk : k < 2 ^ 32 := by omega
      rw [hindex, UInt32.toNat_ofNat_of_lt' hk] at hend
      rw [hawaiting]
      exact ⟨haccepted ▸ hcount, by omega, haccepted ▸ hlast⟩
  · rw [hdone, hrestorer]
    exact hbooks.reported

/-- The restore is over. -/
theorem Sound.conclude {d : RestoreDone} {r : Except ManagerError Bool}
    (hcaller : σ.caller = .awaiting chunk) (houtcome : outcome (conclude d) σ.manager = (r, m)) :
    Sound sha256 snapshot { σ with
      manager := m, caller := .idle, answers := σ.answers ++ [(chunk, r)] } := by
  obtain ⟨n, j, k, hflow, hbooks⟩ := h
  have hat := hbooks.callerAt
  rw [hcaller] at hat
  have hm : m = σ.manager.endLocked := by
    rw [← SnapshotManager.snd_outcome_conclude d, houtcome]
  subst hm
  exact ⟨n, j, k, hflow.frame rfl rfl rfl rfl rfl, hbooks.hashes, hbooks.files,
    (fun hop => nomatch hop), ⟨hat.1.symm, fun hop => nomatch hop⟩, hbooks.reported⟩

/-- The loader receives a number, and opens its file or ends. -/
theorem Sound.load {loader : Loader} {closed : Bool} (hloader : σ.loader = .receiving)
    (hqueue : σ.chunkIDs.queue = chunkID :: rest)
    (hnext : loader = .sending chunkID ∨ loader = .ended) :
    Sound sha256 snapshot { σ with
      chunkIDs := { σ.chunkIDs with queue := rest }
      chunks := { σ.chunks with closed }
      loader } := by
  obtain ⟨r, j, k, ⟨hr, hj, hk, hq, hids, hupTo, hfront⟩, hbooks⟩ := h
  rw [hloader, Loader.held, List.append_nil] at hq
  rw [hids (by rw [hloader]; exact Loader.noConfusion)] at hqueue
  obtain ⟨hlt, hid, hrest⟩ := numbers_eq_cons hqueue
  rcases hnext with rfl | rfl
  · refine ⟨r, j + 1, k, ⟨by omega, hlt, hk, ?_, fun _ => hrest, hupTo, hfront⟩,
      hbooks.frame rfl rfl rfl hbooks.reported⟩
    rw [Loader.held, numbers_succ_right hr, hq, hid]
  · refine ⟨r, j, k, ⟨hr, hj, hk, ?_, fun hne => absurd rfl hne, hupTo, hfront⟩,
      hbooks.frame rfl rfl rfl hbooks.reported⟩
    rw [Loader.held, List.append_nil]
    exact hq

/-- The loader sends the file on. -/
theorem Sound.forward (hloader : σ.loader = .sending chunkID) :
    Sound sha256 snapshot { σ with
      chunks := { σ.chunks with queue := σ.chunks.queue ++ [chunkID] }, loader := .receiving } := by
  obtain ⟨r, j, k, ⟨hr, hj, hk, hq, hids, hupTo, hfront⟩, hbooks⟩ := h
  refine ⟨r, j, k, ⟨hr, hj, hk, ?_, fun _ => hids ?_, hupTo, hfront⟩,
    hbooks.frame rfl rfl rfl hbooks.reported⟩
  · rw [hloader, Loader.held] at hq
    rw [Loader.held, List.append_nil]
    exact hq
  · rw [hloader]
    exact Loader.noConfusion

/-- The loader ends behind the last number. -/
theorem Sound.loadEnds (hloader : σ.loader = .receiving) :
    Sound sha256 snapshot { σ with
      chunks := { σ.chunks with closed := true }, loader := .ended } := by
  obtain ⟨r, j, k, ⟨hr, hj, hk, hq, hids, hupTo, hfront⟩, hbooks⟩ := h
  refine ⟨r, j, k, ⟨hr, hj, hk, ?_, fun hne => absurd rfl hne, hupTo, hfront⟩,
    hbooks.frame rfl rfl rfl hbooks.reported⟩
  rw [hloader] at hq
  exact hq

/-- The restore goroutine takes the next file. -/
theorem Sound.next (hactive : σ.restorer.phase.Active) (hcurrent : σ.restorer.current = none)
    (hqueue : σ.chunks.queue = chunkID :: rest) :
    Sound sha256 snapshot { σ with
      chunks := { σ.chunks with queue := rest }
      restorer := { σ.restorer with current := some (chunkID, 0) } } := by
  obtain ⟨r, j, k, ⟨hr, hj, hk, hq, hids, hupTo, hfront⟩, hbooks⟩ := h
  rw [hqueue, List.cons_append] at hq
  obtain ⟨hlt, hid, hrest⟩ := numbers_eq_cons hq.symm
  have hread := hupTo hactive
  rw [hcurrent, ReadUpTo] at hread
  have hr' : r < σ.accepted.length := by omega
  refine ⟨r + 1, j, k, ⟨hlt, hj, hk, hrest, hids, fun _ => ?_, hfront⟩,
    hbooks.frame rfl rfl rfl fun d hd => hbooks.not_done hactive.ne_reported hd⟩
  refine ⟨r, σ.accepted[r], rfl, hid, List.getElem?_eq_getElem hr', Nat.zero_le _, ?_⟩
  rw [List.take_zero, List.append_nil]
  exact hread

section

variable (hactive : σ.restorer.phase.Active)
  (hcurrent : σ.restorer.current = some (chunkID, offset))
  (hfile : σ.file snapshot chunkID = some data)
include hactive hcurrent hfile

/-- The restore goroutine reads on in its file, which has the accepted chunk. -/
theorem Sound.read (size : ℕ) :
    Sound sha256 snapshot { σ with
      restorer := { σ.restorer with
        current := some (chunkID, offset + ((data.drop offset).take size).length)
        read := σ.restorer.read ++ (data.drop offset).take size } } := by
  obtain ⟨r, j, k, ⟨hr, hj, hk, hq, hids, hupTo, hfront⟩, hbooks⟩ := h
  have hread := hupTo hactive
  rw [hcurrent] at hread
  obtain ⟨i, c, rfl, rfl, hc, hoffset, hread⟩ := hread
  obtain rfl := Option.some.inj (hfile.symm.trans (hbooks.files i c hc))
  have hupTo' : ReadUpTo σ.accepted (i + 1)
      (σ.restorer.read ++ (data.drop offset).take size)
      (some (UInt32.ofNat i, offset + ((data.drop offset).take size).length)) := by
    refine ⟨i, data, rfl, rfl, hc, ?_, ?_⟩
    · rw [List.length_take, List.length_drop]
      omega
    · have hpiece : (data.drop offset).take ((data.drop offset).take size).length =
          (data.drop offset).take size := by
        rw [List.take_eq_take_iff, List.length_take]
        omega
      rw [hread, List.append_assoc, List.take_add, hpiece]
  exact ⟨i + 1, j, k, ⟨hr, hj, hk, hq, hids, fun _ => hupTo', hupTo'.front⟩,
    hbooks.frame rfl rfl rfl fun d hd => hbooks.not_done hactive.ne_reported hd⟩

/-- At the end of a file all of its chunk was read. -/
theorem Sound.endOfFile (hend : data.length ≤ offset) :
    Sound sha256 snapshot { σ with restorer := { σ.restorer with current := none } } := by
  obtain ⟨r, j, k, ⟨hr, hj, hk, hq, hids, hupTo, hfront⟩, hbooks⟩ := h
  have hread := hupTo hactive
  rw [hcurrent] at hread
  obtain ⟨i, c, rfl, rfl, hc, hoffset, hread⟩ := hread
  obtain rfl := Option.some.inj (hfile.symm.trans (hbooks.files i c hc))
  refine ⟨i + 1, j, k, ⟨hr, hj, hk, hq, hids, fun _ => ?_, hfront⟩,
    hbooks.frame rfl rfl rfl fun d hd => hbooks.not_done hactive.ne_reported hd⟩
  obtain ⟨hi, rfl⟩ := List.getElem?_eq_some_iff.mp hc
  rw [ReadUpTo, List.take_succ_eq_append_getElem hi, List.flatten_append, List.flatten_singleton,
    hread, List.take_of_length_le hend]

end

/-- The restore goroutine goes from one phase to another, and reads no more than before. -/
theorem Sound.phase {restorer : Restorer} {done : Option RestoreDone}
    (hread : restorer.read = σ.restorer.read) (hactive : restorer.phase.Active →
      σ.restorer.phase.Active ∧ restorer.current = σ.restorer.current)
    (hreported : ∀ d, done = some d → restorer.phase = .reported) :
    Sound sha256 snapshot { σ with done, restorer } := by
  obtain ⟨r, j, k, ⟨hr, hj, hk, hq, hids, hupTo, hfront⟩, hbooks⟩ := h
  refine ⟨r, j, k, ⟨hr, hj, hk, hq, hids, fun hphase => ?_, ?_⟩,
    hbooks.frame rfl rfl rfl hreported⟩
  · obtain ⟨hactive', hcurrent⟩ := hactive hphase
    rw [hread, hcurrent]
    exact hupTo hactive'
  · rw [hread]
    exact hfront

/-- A file that is closed without being read. -/
theorem Sound.drain {err : Option RestoreError} (hphase : σ.restorer.phase = .closing err)
    (hqueue : σ.chunks.queue = chunkID :: rest) :
    Sound sha256 snapshot { σ with chunks := { σ.chunks with queue := rest } } := by
  obtain ⟨r, j, k, ⟨hr, hj, hk, hq, hids, hupTo, hfront⟩, hbooks⟩ := h
  rw [hqueue, List.cons_append] at hq
  obtain ⟨hlt, -, hrest⟩ := numbers_eq_cons hq.symm
  refine ⟨r + 1, j, k, ⟨hlt, hj, hk, hrest, hids, ?_, hfront⟩,
    hbooks.frame rfl rfl rfl hbooks.reported⟩
  intro hactive
  rw [hphase] at hactive
  exact absurd hactive id

/-- **What every step keeps.** -/
theorem Sound.step (hlength : snapshot.chunkHashes.length < 2 ^ 32)
    (hstep : Step sha256 snapshot σ σ') : σ'.Sound sha256 snapshot := by
  cases hstep with
  | refuse hcaller houtcome =>
    exact h.refuse hlength hcaller (refuses_of_offerChunk houtcome)
  | accept hcaller houtcome =>
    obtain ⟨haccepts, rfl⟩ := SnapshotManager.accepts_of_offerChunk houtcome
    exact h.accept hlength hcaller haccepts
  | send hcaller _ _ => exact h.send hcaller
  | passNext hcaller houtcome | passFails hcaller houtcome =>
    exact h.pass hlength hcaller houtcome rfl rfl rfl rfl rfl rfl rfl (.inl rfl)
  | passLast hcaller houtcome =>
    exact h.pass hlength hcaller houtcome rfl rfl rfl rfl rfl rfl rfl (.inr ⟨rfl, rfl⟩)
  | conclude hcaller _ houtcome => exact h.conclude hcaller houtcome
  | load hloader hqueue _ => exact h.load hloader hqueue (.inl rfl)
  | loadFails hloader hqueue => exact h.load hloader hqueue (.inr rfl)
  | forward hloader _ => exact h.forward hloader
  | loadEnds hloader _ _ => exact h.loadEnds hloader
  | next hactive hcurrent hqueue => exact h.next hactive hcurrent hqueue
  | read size hactive hcurrent hfile => exact h.read hactive hcurrent hfile size
  | endOfFile hactive hcurrent hfile hend => exact h.endOfFile hactive hcurrent hfile hend
  | opened hphase =>
    obtain ⟨_, _, _, _, hbooks⟩ := id h
    exact h.phase rfl (fun _ => ⟨hphase ▸ trivial, rfl⟩)
      fun d hd => hbooks.not_done (hphase ▸ RestorePhase.noConfusion) hd
  | openFails hphase e => exact h.phase rfl (fun hactive => absurd hactive id) fun _ _ => rfl
  | finish hphase err =>
    obtain ⟨_, _, _, _, hbooks⟩ := id h
    exact h.phase rfl (fun hactive => absurd hactive id)
      fun d hd => hbooks.not_done (hphase ▸ RestorePhase.noConfusion) hd
  | drain hphase hqueue => exact h.drain hphase hqueue
  | report hphase _ _ => exact h.phase rfl (fun hactive => absurd hactive id) fun _ _ => rfl

end

/-- The processes when `Restore` has accepted the snapshot. -/
theorem sound_start {m' : SnapshotManager} {input : SnapshotManager.RestoreInput}
    (h : outcome (restore snapshot input) m = (.ok (), m')) :
    (start m').Sound sha256 snapshot := by
  obtain ⟨hrestoring, hindex⟩ := restoring_of_restore h
  refine ⟨0, 0, 0, ⟨Nat.le_refl 0, Nat.le_refl 0, Nat.le_refl 0, rfl, fun _ => rfl, fun _ => rfl,
    List.prefix_refl _⟩, ⟨?_, ?_, fun _ => hrestoring.restoreSnapshot_eq, ⟨rfl, fun _ => hindex⟩,
    fun d hd => nomatch hd⟩⟩
  · exact ⟨snapshot.chunkHashes, rfl⟩
  · intro i c hc
    cases hc

end

end RestoreSystem

/-! ### What is delivered -/

/-- The errors of `RestoreChunk` that reject the chunk: it is not awaited, it is not the right one,
or it cannot be saved. The others tell that the restore has ended, or that the metadata behind the
last chunk could not be saved. -/
def ManagerError.Rejects : ManagerError → Prop
  | .noRestore => True
  | .unexpectedChunk => True
  | .chunkHashMismatch _ _ => True
  | .saveChunkContent _ => True
  | _ => False

namespace RestoreSystem

open SnapshotManager (offerChunk passChunk)

variable {sha256 : Bytes → Bytes} {snapshot : Snapshot} {σ σ' : RestoreSystem} {chunk : Bytes}
  {m m' : SnapshotManager} {d : RestoreDone} {e : ManagerError} {chunkID : UInt32}
  {rest : List UInt32}

/-- The index and the stream are the same: the channels, the other two processes, and the accepted
chunks with their files. -/
structure Unmoved (snapshot : Snapshot) (σ σ' : RestoreSystem) : Prop where
  restoreChunkIndex_eq : σ'.manager.restoreChunkIndex = σ.manager.restoreChunkIndex
  chunkIDs_eq : σ'.chunkIDs = σ.chunkIDs
  chunks_eq : σ'.chunks = σ.chunks
  loader_eq : σ'.loader = σ.loader
  restorer_eq : σ'.restorer = σ.restorer
  accepted_eq : σ'.accepted = σ.accepted
  file_eq : ∀ i < σ.accepted.length,
    σ'.file snapshot (UInt32.ofNat i) = σ.file snapshot (UInt32.ofNat i)

/-- The chunk of the call is the last one of the snapshot, and the restore has reported success. -/
structure Completed (snapshot : Snapshot) (σ : RestoreSystem) (chunk : Bytes) : Prop where
  caller_eq : σ.caller = .awaiting chunk
  last : σ.accepted.getLast? = some chunk
  length_eq : σ.accepted.length = snapshot.chunkHashes.length
  done_eq : σ.done = some ⟨true, none⟩
  reported : σ.restorer.phase = .reported

/-- A step in which a call of `RestoreChunk` returns. -/
theorem Step.cases_answer (h : Step sha256 snapshot σ σ') {r : Except ManagerError Bool}
    (hanswer : σ'.answers = σ.answers ++ [(chunk, r)]) :
    (∃ fault e m, outcome (offerChunk sha256 σ.done fault chunk) σ.manager = (.error e, m) ∧
      r = .error e ∧ σ.caller = .idle ∧ σ' = { σ with
        manager := m, chunkIDs := σ.drop m, answers := σ.answers ++ [(chunk, r)] }) ∨
    (∃ faults snap m, outcome (passChunk faults snap) σ.manager = (r, m) ∧ r ≠ .ok true) ∨
    ∃ d m, σ.caller = .awaiting chunk ∧ σ.done = some d ∧
      outcome (SnapshotManager.conclude d) σ.manager = (r, m) := by
  cases h with
  | refuse hcaller houtcome =>
    obtain ⟨rfl, rfl⟩ := Prod.mk.inj (List.cons.inj (List.append_cancel_left hanswer)).1
    exact .inl ⟨_, _, _, houtcome, rfl, hcaller, rfl⟩
  | passNext hcaller houtcome | passFails hcaller houtcome =>
    obtain ⟨rfl, rfl⟩ := Prod.mk.inj (List.cons.inj (List.append_cancel_left hanswer)).1
    exact .inr (.inl ⟨_, _, _, houtcome, fun hr => nomatch hr⟩)
  | conclude hcaller hdone houtcome =>
    obtain ⟨rfl, rfl⟩ := Prod.mk.inj (List.cons.inj (List.append_cancel_left hanswer)).1
    exact .inr (.inr ⟨_, _, hcaller, hdone, houtcome⟩)
  | _ => simp at hanswer

/-- The channel stays as it is while the manager keeps it. -/
theorem drop_eq (h : m.chRestore = σ.manager.chRestore) : σ.drop m = σ.chunkIDs := by
  rw [drop, h]
  cases σ.manager.chRestore <;> simp

/-- What `RestoreChunk` returns at the end of a restore is no rejection. -/
theorem not_rejects_of_conclude (h : outcome (SnapshotManager.conclude d) m = (.error e, m')) :
    ¬e.Rejects := by
  obtain ⟨complete, err⟩ := d
  cases err with
  | some err =>
    cases h
    exact id
  | none =>
    cases complete with
    | true => cases h
    | false =>
      cases h
      exact id

/-- `true` is answered for success only. -/
theorem eq_of_conclude (h : outcome (SnapshotManager.conclude d) m = (.ok true, m')) :
    d = ⟨true, none⟩ := by
  obtain ⟨complete, err⟩ := d
  cases err with
  | some err => cases h
  | none =>
    cases complete with
    | true => rfl
    | false => cases h

theorem not_rejects_earlyError (d : RestoreDone) : ¬(earlyError d).Rejects := by
  obtain ⟨complete, err⟩ := d
  cases err <;> exact id

/-- **A rejected chunk changes neither the index nor the stream.** -/
theorem Sound.unmoved (h : σ.Sound sha256 snapshot) (hlength : snapshot.chunkHashes.length < 2 ^ 32)
    (hstep : Step sha256 snapshot σ σ') (hanswer : σ'.answers = σ.answers ++ [(chunk, .error e)])
    (he : e.Rejects) : Unmoved snapshot σ σ' := by
  obtain ⟨r, j, k, -, hbooks⟩ := h
  rcases hstep.cases_answer hanswer with ⟨fault, e', m, houtcome, heq, hcaller, rfl⟩ |
    ⟨faults, snap, m, houtcome, -⟩ | ⟨d, m, -, -, houtcome⟩
  · cases heq
    cases refuses_of_offerChunk houtcome with
    | unchanged e => exact ⟨rfl, drop_eq rfl, rfl, rfl, rfl, rfl, fun _ _ => rfl⟩
    | short hop hsnapshot data =>
      obtain rfl := Option.some.inj (hsnapshot.symm.trans (hbooks.restoring hop))
      have hat := hbooks.callerAt
      rw [hcaller] at hat
      exact ⟨rfl, drop_eq rfl, rfl, rfl, rfl, rfl, fun i hi =>
        hbooks.file_writeChunk hlength (hat.1 ▸ hat.2 hop) data hi⟩
    | ended hd => exact absurd he (not_rejects_earlyError _)
  · obtain ⟨-, -, -, -, -, herror⟩ := passChunk_spec houtcome
    obtain ⟨e', rfl⟩ := herror e rfl
    exact absurd he id
  · exact absurd he (not_rejects_of_conclude houtcome)

/-- **`RestoreChunk` returns `true` only behind the last chunk**, when the restore has succeeded. -/
theorem Sound.completed (h : σ.Sound sha256 snapshot) (hstep : Step sha256 snapshot σ σ')
    (hanswer : σ'.answers = σ.answers ++ [(chunk, .ok true)]) : Completed snapshot σ chunk := by
  obtain ⟨r, j, k, -, hbooks⟩ := h
  rcases hstep.cases_answer hanswer with ⟨_, _, _, _, heq, _⟩ | ⟨_, _, _, _, hne⟩ |
    ⟨d, m, hcaller, hdone, houtcome⟩
  · cases heq
  · exact absurd rfl hne
  · obtain rfl := eq_of_conclude houtcome
    have hat := hbooks.callerAt
    rw [hcaller] at hat
    exact ⟨hcaller, hat.2.2, hat.1.trans hat.2.1, hdone, hbooks.reported _ hdone⟩

/-- **A chunked restore delivers verified bytes in order.** In every interleaving, from a `Restore`
that has accepted a snapshot with fewer than `2 ^ 32` hashes: the bytes that the restore goroutine
has read are a front of the accepted chunks, the hashes of these are the first ones of the
snapshot, and of the next step of any process it holds that a rejected chunk changes neither the
index nor the stream, and that `RestoreChunk` returns `true` only from the call that accepted the
last chunk, after success was reported. -/
theorem restore_delivers {m m' : SnapshotManager} {input : SnapshotManager.RestoreInput}
    (hrestore : outcome (restore snapshot input) m = (.ok (), m'))
    (hlength : snapshot.chunkHashes.length < 2 ^ 32)
    (hrun : Relation.ReflTransGen (Step sha256 snapshot) (start m') σ) :
    σ.restorer.read <+: σ.accepted.flatten ∧
      σ.accepted.map sha256 <+: snapshot.chunkHashes ∧
      ∀ σ', Step sha256 snapshot σ σ' →
        (∀ chunk e, σ'.answers = σ.answers ++ [(chunk, .error e)] → e.Rejects →
          Unmoved snapshot σ σ') ∧
        ∀ chunk, σ'.answers = σ.answers ++ [(chunk, .ok true)] → Completed snapshot σ chunk := by
  have hsound : σ.Sound sha256 snapshot := by
    induction hrun with
    | refl => exact sound_start hrestore
    | tail _ hlast ih => exact ih.step hlength hlast
  obtain ⟨r, j, k, hflow, hbooks⟩ := id hsound
  exact ⟨hflow.front, hbooks.hashes, fun σ' hstep =>
    ⟨fun chunk e hanswer he => hsound.unmoved hlength hstep hanswer he,
      fun chunk hanswer => hsound.completed hstep hanswer⟩⟩

/-! ### Particular runs -/

/-- A restore in which `n` chunks have gone all the way. -/
structure Ready (snapshot : Snapshot) (σ : RestoreSystem) (n : ℕ) : Prop where
  operation_eq : σ.manager.operation = .restore
  restoreSnapshot_eq : σ.manager.restoreSnapshot = some snapshot
  chRestore_isSome : σ.manager.chRestore.isSome
  index_eq : σ.manager.restoreChunkIndex = UInt32.ofNat n
  done_eq : σ.done = none
  caller_eq : σ.caller = .idle
  chunkIDs_eq : σ.chunkIDs.queue = []
  chunks_eq : σ.chunks.queue = []
  loader_eq : σ.loader = .receiving
  phase_eq : σ.restorer.phase = .opening
  current_eq : σ.restorer.current = none

/-- The start. -/
theorem ready_start {input : SnapshotManager.RestoreInput}
    (h : outcome (restore snapshot input) m = (.ok (), m')) :
    Ready snapshot (start m') 0 := by
  obtain ⟨hrestoring, hindex⟩ := restoring_of_restore h
  exact ⟨hrestoring.operation_eq, hrestoring.restoreSnapshot_eq, hrestoring.chRestore_isSome,
    hindex, rfl, rfl, rfl, rfl, rfl, rfl, rfl⟩

/-- The caller gets rid of a chunk that is accepted and not the last one. -/
theorem run_caller (hcaller : σ.caller = .idle)
    (haccepts : SnapshotManager.Accepts sha256 σ.manager σ.done none chunk snapshot)
    (hopen : σ.manager.chRestore.isSome) (hroom : σ.chunkIDs.queue.length < chunkIDBufferSize)
    (hnext : (σ.manager.restoreChunkIndex + 1).toNat < snapshot.chunkHashes.length) :
    Relation.ReflTransGen (Step sha256 snapshot) σ { σ with
      manager := { σ.manager.writeChunk snapshot chunk with
        restoreChunkIndex := σ.manager.restoreChunkIndex + 1 }
      chunkIDs := { σ.chunkIDs with queue := σ.chunkIDs.queue ++ [σ.manager.restoreChunkIndex] }
      caller := .idle
      accepted := σ.accepted ++ [chunk]
      answers := σ.answers ++ [(chunk, .ok false)] } := by
  let σ₁ : RestoreSystem := { σ with
    manager := σ.manager.writeChunk snapshot chunk
    caller := .sending chunk snapshot
    accepted := σ.accepted ++ [chunk] }
  let σ₂ : RestoreSystem := { σ₁ with
    chunkIDs := { σ.chunkIDs with queue := σ.chunkIDs.queue ++ [σ.manager.restoreChunkIndex] }
    caller := .passing chunk snapshot }
  have h₁ : Step sha256 snapshot σ σ₁ := .accept hcaller haccepts.outcome_offerChunk
  have h₂ : Step sha256 snapshot σ₁ σ₂ := .send rfl hopen hroom
  have h₃ : Step sha256 snapshot σ₂ _ :=
    .passNext rfl (SnapshotManager.outcome_passChunk_of_lt { } hnext)
  exact .tail (.tail (.single h₁) h₂) h₃

/-- The loader sends on the file of the next number. -/
theorem run_loader (hloader : σ.loader = .receiving) (hqueue : σ.chunkIDs.queue = chunkID :: rest)
    (hfile : (σ.file snapshot chunkID).isSome) (hroom : σ.chunks.queue.length < chunkBufferSize) :
    Relation.ReflTransGen (Step sha256 snapshot) σ { σ with
      chunkIDs := { σ.chunkIDs with queue := rest }
      chunks := { σ.chunks with queue := σ.chunks.queue ++ [chunkID] }
      loader := .receiving } := by
  let σ₁ : RestoreSystem := { σ with
    chunkIDs := { σ.chunkIDs with queue := rest }
    loader := .sending chunkID }
  have h₁ : Step sha256 snapshot σ σ₁ := .load hloader hqueue hfile
  have h₂ : Step sha256 snapshot σ₁ _ := .forward rfl hroom
  exact .tail (.single h₁) h₂

/-- The restore goroutine reads the next file at once, and closes it. -/
theorem run_restorer {data : Bytes} (hactive : σ.restorer.phase.Active)
    (hcurrent : σ.restorer.current = none) (hqueue : σ.chunks.queue = chunkID :: rest)
    (hfile : σ.file snapshot chunkID = some data) :
    Relation.ReflTransGen (Step sha256 snapshot) σ { σ with
      chunks := { σ.chunks with queue := rest }
      restorer := { σ.restorer with current := none, read := σ.restorer.read ++ data } } := by
  have hread : (data.drop 0).take data.length = data := by
    rw [List.drop_zero, List.take_length]
  let σ₁ : RestoreSystem := { σ with
    chunks := { σ.chunks with queue := rest }
    restorer := { σ.restorer with current := some (chunkID, 0) } }
  let σ₂ : RestoreSystem := { σ₁ with
    restorer := { σ.restorer with
      current := some (chunkID, data.length), read := σ.restorer.read ++ data } }
  have h₁ : Step sha256 snapshot σ σ₁ := .next hactive hcurrent hqueue
  have h₂ : Step sha256 snapshot σ₁ σ₂ := by
    have hstep := @Step.read sha256 snapshot σ₁ chunkID 0 data data.length hactive rfl hfile
    rwa [hread, Nat.zero_add] at hstep
  have h₃ : Step sha256 snapshot σ₂ _ := .endOfFile hactive rfl hfile le_rfl
  exact .tail (.tail (.single h₁) h₂) h₃

/-- A chunk with the hash at the index, which is not the last one, can go all the way. -/
theorem Ready.feed {n : ℕ} (h : Ready snapshot σ n)
    (hhash : snapshot.chunkHashes[(UInt32.ofNat n).toNat]? = some (sha256 chunk))
    (hnext : (UInt32.ofNat (n + 1)).toNat < snapshot.chunkHashes.length) :
    ∃ σ', Relation.ReflTransGen (Step sha256 snapshot) σ σ' ∧ Ready snapshot σ' (n + 1) ∧
      σ'.accepted = σ.accepted ++ [chunk] ∧ σ'.restorer.read = σ.restorer.read ++ chunk := by
  have hindex : σ.manager.restoreChunkIndex + 1 = UInt32.ofNat (n + 1) := by
    rw [h.index_eq, UInt32.ofNat_add]
    rfl
  have haccepts : SnapshotManager.Accepts sha256 σ.manager σ.done none chunk snapshot := by
    refine ⟨h.operation_eq, h.restoreSnapshot_eq, ?_, ?_, rfl⟩
    · rwa [h.index_eq]
    · rw [h.done_eq]
      cases σ.manager.chRestoreDone <;> rfl
  have hfile : (σ.manager.writeChunk snapshot chunk).store.loadChunk snapshot.height
      snapshot.format σ.manager.restoreChunkIndex = some chunk := by
    rw [writeChunk, SnapshotStore.loadChunk_writeChunk, if_pos ⟨rfl, rfl, rfl⟩]
  have hactive : σ.restorer.phase.Active := by
    rw [h.phase_eq]
    trivial
  have hcaller := run_caller h.caller_eq haccepts h.chRestore_isSome
    (by rw [h.chunkIDs_eq]; decide) (hindex ▸ hnext)
  rw [h.chunkIDs_eq] at hcaller
  have hloader := hcaller.trans (run_loader h.loader_eq rfl
    (Option.isSome_iff_exists.mpr ⟨chunk, hfile⟩) (by rw [h.chunks_eq]; decide))
  rw [h.chunks_eq] at hloader
  exact ⟨_, hloader.trans (run_restorer hactive h.current_eq rfl hfile),
    ⟨h.operation_eq, h.restoreSnapshot_eq, h.chRestore_isSome, hindex, h.done_eq, rfl, rfl, rfl,
      rfl, h.phase_eq, rfl⟩, rfl, rfl⟩

/-- A snapshot of two chunks, with the identity for the hash. -/
def twoChunks : Snapshot := ⟨1, 3, 2, [], [[7], [8]]⟩

/-- The first of two chunks has been read. -/
theorem restore_delivers_of_twoChunks :
    ∃ m' σ, outcome (restore twoChunks ⟨0, 1, false⟩)
        (newManager .fresh) = (.ok (), m') ∧
      Relation.ReflTransGen (Step id twoChunks) (start m') σ ∧
      σ.restorer.read = [7] ∧ σ.accepted = [[7]] ∧
      σ.restorer.read <+: σ.accepted.flatten ∧
      σ.accepted.map id <+: twoChunks.chunkHashes := by
  have hrestore : outcome (restore twoChunks ⟨0, 1, false⟩)
      (newManager .fresh) = (.ok (), _) := rfl
  have hhash : twoChunks.chunkHashes[(UInt32.ofNat 0).toNat]? = some (id [7]) := rfl
  obtain ⟨σ, hrun, _, haccepted, hread⟩ := (ready_start hrestore).feed hhash (by decide)
  obtain ⟨hfront, hhashes, _⟩ := restore_delivers hrestore (by decide) hrun
  exact ⟨_, σ, hrestore, hrun, hread, haccepted, hfront, hhashes⟩

/-- A snapshot with more chunk hashes than a `uint32` counts, of which only the last one differs
from the others. `Restore` compares their number modulo `2 ^ 32` with `Chunks`. -/
def tooMany : Snapshot := ⟨1, 3, 1, [], List.replicate (2 ^ 32) [] ++ [[1]]⟩

theorem length_tooMany : tooMany.chunkHashes.length = 2 ^ 32 + 1 := by
  rw [tooMany, List.length_append, List.length_replicate, List.length_singleton]

/-- The restore goes on with empty chunks for ever: the index never gets to the last hash. -/
theorem feed_tooMany (h : Ready tooMany σ 0) (hnone : σ.accepted = []) (n : ℕ) :
    ∃ σ', Relation.ReflTransGen (Step id tooMany) σ σ' ∧ Ready tooMany σ' n ∧
      σ'.accepted = List.replicate n [] := by
  induction n with
  | zero => exact ⟨σ, .refl, h, hnone⟩
  | succ n ih =>
    obtain ⟨σ₁, hrun, hready, haccepted⟩ := ih
    have hlt : ∀ k : ℕ, (UInt32.ofNat k).toNat < 2 ^ 32 := fun k => UInt32.toNat_lt _
    have hhash : tooMany.chunkHashes[(UInt32.ofNat n).toNat]? = some (id []) := by
      rw [tooMany, List.getElem?_append_left (by rw [List.length_replicate]; exact hlt n),
        List.getElem?_replicate, if_pos (hlt n)]
      rfl
    have hnext : (UInt32.ofNat (n + 1)).toNat < tooMany.chunkHashes.length := by
      rw [length_tooMany]
      exact (hlt (n + 1)).trans (Nat.lt_succ_self _)
    obtain ⟨σ₂, hfed, hready', haccepted', _⟩ := hready.feed hhash hnext
    refine ⟨σ₂, hrun.trans hfed, hready', ?_⟩
    rw [haccepted', haccepted, List.replicate_succ']

/-- **A chunk can be accepted with the hash of another one**, when there are more than `2 ^ 32`
hashes: the index has wrapped. -/
theorem restore_delivers_fails :
    ∃ m' σ c, outcome (restore tooMany ⟨0, 1, false⟩)
        (newManager .fresh) = (.ok (), m') ∧
      Relation.ReflTransGen (Step id tooMany) (start m') σ ∧
      σ.accepted[2 ^ 32]? = some c ∧ tooMany.chunkHashes[2 ^ 32]? ≠ some (id c) := by
  have hcheck : checkRestore tooMany = .ok () := by
    rw [checkRestore, length_tooMany]
    rfl
  obtain ⟨m', hrestore⟩ : ∃ m', outcome (restore tooMany ⟨0, 1, false⟩)
      (newManager .fresh) = (.ok (), m') := by
    rw [restore, hcheck]
    exact ⟨_, rfl⟩
  obtain ⟨σ, hrun, _, haccepted⟩ := feed_tooMany (ready_start hrestore) rfl (2 ^ 32 + 1)
  refine ⟨m', σ, [], hrestore, hrun, ?_, ?_⟩
  · rw [haccepted, List.getElem?_replicate, if_pos (Nat.lt_succ_self _)]
  · have hlast : tooMany.chunkHashes[2 ^ 32]? = some [1] := by
      rw [tooMany, List.getElem?_append_right (by rw [List.length_replicate]),
        List.length_replicate, Nat.sub_self]
      rfl
    rw [hlast]
    exact fun h => List.cons_ne_nil _ _ (Option.some.inj h)

end RestoreSystem

end MelodiaStore
