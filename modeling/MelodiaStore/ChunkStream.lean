import MelodiaStore.Chunking
import MelodiaStore.Simulation
import MelodiaStore.Types

/-!
# Chunk Streams

`ChunkWriter` and `ChunkReader` of `snapshots/chunk.go`. The writer cuts a stream of bytes into
chunks of a fixed size, each of them the reading end of a pipe that it sends on a channel; the
reader reads the pipes of a channel one after the other.

`io.Pipe` belongs to Go's library. It is modelled by what its documentation says: the writes come
out in order, a read takes from one write only, and how the pipe was closed is reported by a read
of no bytes, when nothing is left. What a reader gets does not depend on when it reads, so the
channel is the list of the pipes that were sent, as they are when the writer is closed.

## Main results

* `chunkStream_lossless`: both together, for a writer that is closed with or without an error.
-/

namespace MelodiaStore

open List (append_assoc flatten_append flatten_cons flatten_singleton forall_mem_append
  forall_mem_singleton map_cons mem_cons_of_mem mem_cons_self not_mem_nil)

/-! ### Pipes -/

/-- An error of a reader: `io.EOF`, or another one. -/
inductive ReadError
  | eof
  | other (message : String)
  deriving DecidableEq

/-- A pipe that was closed: what was written to it and not read yet, and the error that tells its
end. `Close` is `CloseWithError(io.EOF)`. -/
structure Pipe where
  writes : List Bytes
  ending : ReadError
  deriving DecidableEq

namespace Pipe

/-- The bytes of a pipe. -/
def content (p : Pipe) : Bytes := p.writes.flatten

/-- `PipeReader.Read` with a buffer of `size` bytes: what is read, the error, and what is left. -/
def read (p : Pipe) (size : ℕ) : Bytes × Option ReadError × Pipe :=
  match p.writes with
  | [] => ([], some p.ending, p)
  | write :: writes =>
    if write.length ≤ size then (write, none, { p with writes })
    else (write.take size, none, { p with writes := write.drop size :: writes })

end Pipe

/-! ### The writer -/

/-- `snapshots.ChunkWriter`. The pipes that were sent and closed are in `sent`; the one that is
open was sent after them, and is kept as the list of its writes. -/
structure ChunkWriter where
  sent : List Pipe
  pipe : Option (List Bytes)
  chunkSize : UInt64
  written : UInt64
  closed : Bool

/-- The errors of `ChunkWriter.Write`. -/
inductive ChunkWriterError
  /-- `ErrLogic`: cannot write to closed ChunkWriter -/
  | closed
  deriving DecidableEq

namespace ChunkWriter

/-- `snapshots.NewChunkWriter`. -/
def newChunkWriter (chunkSize : UInt64) : ChunkWriter :=
  { sent := [], pipe := none, chunkSize, written := 0, closed := false }

/-- Closes the open pipe, if there is one. -/
def closePipe (w : ChunkWriter) (e : ReadError) : ChunkWriter :=
  match w.pipe with
  | none => w
  | some writes => { w with sent := w.sent ++ [⟨writes, e⟩], pipe := none }

/-- `ChunkWriter.chunk`. -/
def chunk (w : ChunkWriter) : ChunkWriter :=
  { w.closePipe .eof with pipe := some [], written := 0 }

/-- `ChunkWriter.Close`. -/
def close (w : ChunkWriter) : ChunkWriter :=
  if w.closed then w else { w.closePipe .eof with closed := true }

/-- `ChunkWriter.CloseWithError`; without a pipe one is made to carry the error. -/
def closeWithError (w : ChunkWriter) (e : ReadError) : ChunkWriter :=
  if w.closed then w
  else
    let w := if w.pipe.isNone then w.chunk else w
    { w.closePipe e with closed := true }

/-- The first step of a round of `ChunkWriter.Write`: a chunk is opened when there is none, or when
the open one is full. -/
def openChunk (w : ChunkWriter) : ChunkWriter :=
  if w.pipe.isNone ∨ w.written ≥ w.chunkSize ∧ w.chunkSize > 0 then w.chunk else w

/-- `pipe.Write` on the open pipe. -/
def writePipe (w : ChunkWriter) (data : Bytes) : ChunkWriter :=
  { w with
    pipe := w.pipe.map (· ++ [data])
    written := w.written + UInt64.ofNat data.length }

/-- How much of the data goes into the open chunk. -/
def writeSize (w : ChunkWriter) (data : Bytes) : ℕ :=
  min (if w.chunkSize = 0 then data.length else (w.chunkSize - w.written).toNat) data.length

/-- The loop of `ChunkWriter.Write`, with a bound on its rounds. -/
def writeLoop : ℕ → Bytes → ℕ → EStateM Panic ChunkWriter ℕ
  | _, [], nTotal => return nTotal
  | 0, _ :: _, _ => throw .outOfFuel
  | fuel + 1, data, nTotal => do
    let w ← MonadState.get
    let w := w.openChunk
    let n := w.writeSize data
    set (w.writePipe (data.take n))
    writeLoop fuel (data.drop n) (nTotal + n)

/-- `ChunkWriter.Write`. Every round writes at least one byte. -/
def write (data : Bytes) : EStateM Panic ChunkWriter (Except ChunkWriterError ℕ) := do
  let w ← MonadState.get
  if w.closed then
    return .error .closed
  let n ← writeLoop data.length data 0
  return .ok n

end ChunkWriter

/-! ### The reader -/

/-- `snapshots.ChunkReader` on a channel that is closed behind its pipes. -/
structure ChunkReader where
  ch : List Pipe
  reader : Option Pipe

namespace ChunkReader

/-- `snapshots.NewChunkReader`. -/
def newChunkReader (ch : List Pipe) : ChunkReader := ⟨ch, none⟩

/-- `ChunkReader.Read` from a pipe, and from the next ones if it is at its end. -/
def readFrom (size : ℕ) : Pipe → List Pipe → (Bytes × Option ReadError) × ChunkReader
  | p, ch =>
    match p.read size with
    | (_, some .eof, _) =>
      match ch with
      | [] => (([], some .eof), ⟨[], none⟩)
      | q :: ch => readFrom size q ch
    | (data, err, p') => ((data, err), ⟨ch, some p'⟩)

/-- `ChunkReader.Read` with a buffer of `size` bytes. -/
def read (r : ChunkReader) (size : ℕ) : (Bytes × Option ReadError) × ChunkReader :=
  match r.reader, r.ch with
  | some p, ch => readFrom size p ch
  | none, p :: ch => readFrom size p ch
  | none, [] => (([], some .eof), r)

/-- The answers to reads with buffers of the given sizes. -/
def reads : List ℕ → ChunkReader → List (Bytes × Option ReadError)
  | [], _ => []
  | size :: sizes, r => (r.read size).1 :: reads sizes (r.read size).2

end ChunkReader

/-! ### What is written -/

namespace ChunkWriter

/-- The pipes that were sent and closed hold full chunks. -/
structure Filled (chunkSize : UInt64) (w : ChunkWriter) : Prop where
  size_eq : w.chunkSize = chunkSize
  isOpen : w.closed = false
  ended : ∀ p ∈ w.sent, p.ending = .eof
  nonempty : ∀ p ∈ w.sent, ∀ write ∈ p.writes, write ≠ []
  full : ∀ p ∈ w.sent, p.content.length = chunkSize.toNat ∧ chunkSize.toNat ≠ 0

/-- The open pipe, of which `room` says how much it may hold, and the data so far. -/
structure Current (chunkSize : UInt64) (data : Bytes) (writes : List Bytes) (w : ChunkWriter) :
    Prop where
  pipe_eq : w.pipe = some writes
  nonempty : ∀ write ∈ writes, write ≠ []
  room : chunkSize ≠ 0 →
    w.written.toNat = writes.flatten.length ∧ writes.flatten.length ≤ chunkSize.toNat
  data_eq : (w.sent.map Pipe.content).flatten ++ writes.flatten = data

/-- What holds between two writes: nothing was written and nothing sent, or the open pipe has the
last chunk. -/
structure Writing (chunkSize : UInt64) (data : Bytes) (w : ChunkWriter) : Prop where
  filled : Filled chunkSize w
  current : w.pipe = none ∧ w.sent = [] ∧ data = [] ∨
    ∃ writes, Current chunkSize data writes w ∧ writes.flatten ≠ []

variable {chunkSize : UInt64} {data more : Bytes} {w : ChunkWriter} {writes : List Bytes}

/-- A new writer. -/
theorem writing_newChunkWriter (chunkSize : UInt64) :
    Writing chunkSize [] (newChunkWriter chunkSize) where
  filled := ⟨rfl, rfl, fun _ h => absurd h not_mem_nil, fun _ h => absurd h not_mem_nil,
    fun _ h => absurd h not_mem_nil⟩
  current := .inl ⟨rfl, rfl, rfl⟩

/-- A full chunk is closed, and the next one is opened. -/
theorem Filled.nextChunk (hfilled : Filled chunkSize w) (hcur : Current chunkSize data writes w)
    (hfull : writes.flatten.length = chunkSize.toNat) (hne : chunkSize.toNat ≠ 0) :
    Filled chunkSize
        { w with sent := w.sent ++ [⟨writes, .eof⟩], pipe := some [], written := 0 } ∧
      Current chunkSize data []
        { w with sent := w.sent ++ [⟨writes, .eof⟩], pipe := some [], written := 0 } := by
  constructor
  · refine ⟨hfilled.size_eq, hfilled.isOpen, ?_, ?_, ?_⟩
    · exact forall_mem_append.mpr ⟨hfilled.ended, forall_mem_singleton.mpr rfl⟩
    · exact forall_mem_append.mpr
        ⟨hfilled.nonempty, forall_mem_singleton.mpr hcur.nonempty⟩
    · exact forall_mem_append.mpr
        ⟨hfilled.full, forall_mem_singleton.mpr ⟨hfull, hne⟩⟩
  · refine ⟨rfl, fun _ h => absurd h not_mem_nil, fun _ => ⟨rfl, Nat.zero_le _⟩, ?_⟩
    rw [← hcur.data_eq]
    simp [Pipe.content]

/-- A chunk that is open has room for a byte. -/
theorem Writing.openChunk (h : Writing chunkSize data w) :
    Filled chunkSize w.openChunk ∧ ∃ writes, Current chunkSize data writes w.openChunk ∧
      (chunkSize ≠ 0 → writes.flatten.length < chunkSize.toNat) := by
  obtain ⟨hfilled, hcurrent⟩ := h
  have hpositive : chunkSize ≠ 0 → 0 < chunkSize.toNat := by
    intro hne
    rw [Nat.pos_iff_ne_zero]
    intro h0
    exact hne (UInt64.toNat_inj.mp h0)
  rcases hcurrent with ⟨hnone, hsent, rfl⟩ | ⟨writes, hcur, hne⟩
  · -- the first chunk
    have hopen : w.openChunk = { w with pipe := some [], written := 0 } := by
      rw [ChunkWriter.openChunk, if_pos (.inl (by rw [hnone]; rfl)), chunk, closePipe, hnone]
    rw [hopen]
    refine ⟨⟨hfilled.size_eq, hfilled.isOpen, hfilled.ended, hfilled.nonempty, hfilled.full⟩, [],
      ⟨rfl, fun _ h => absurd h not_mem_nil, fun _ => ⟨rfl, Nat.zero_le _⟩, ?_⟩, hpositive⟩
    show (w.sent.map Pipe.content).flatten ++ [] = []
    rw [hsent]
    rfl
  · by_cases hfull : w.written ≥ w.chunkSize ∧ w.chunkSize > 0
    · -- the open chunk is full
      have hopen : w.openChunk =
          { w with sent := w.sent ++ [⟨writes, .eof⟩], pipe := some [], written := 0 } := by
        rw [ChunkWriter.openChunk, if_pos (.inr hfull), chunk, closePipe, hcur.pipe_eq]
      rw [hfilled.size_eq] at hfull
      have hne0 : chunkSize ≠ 0 := by
        rintro rfl
        exact absurd hfull.2 (by decide)
      obtain ⟨hwritten, hle⟩ := hcur.room hne0
      have hge : chunkSize.toNat ≤ w.written.toNat := UInt64.le_iff_toNat_le.mp hfull.1
      obtain ⟨hfilled', hcur'⟩ :=
        hfilled.nextChunk hcur (by omega) (Nat.ne_of_gt (hpositive hne0))
      rw [hopen]
      exact ⟨hfilled', [], hcur', hpositive⟩
    · have hopen : w.openChunk = w := by
        rw [ChunkWriter.openChunk, if_neg]
        rintro (hnone | h)
        · rw [hcur.pipe_eq] at hnone
          cases hnone
        · exact hfull h
      rw [hopen]
      refine ⟨hfilled, writes, hcur, ?_⟩
      intro hne0
      obtain ⟨hwritten, -⟩ := hcur.room hne0
      by_contra hlt
      rw [hfilled.size_eq, ge_iff_le, UInt64.le_iff_toNat_le, gt_iff_lt,
        UInt64.lt_iff_toNat_lt] at hfull
      exact hfull ⟨by omega, hpositive hne0⟩

/-- Something that fits is written to the open chunk. -/
theorem Current.writePipe (hcur : Current chunkSize data writes w) (hfilled : Filled chunkSize w)
    (hne : more ≠ []) (hfits : chunkSize ≠ 0 → writes.flatten.length + more.length ≤
      chunkSize.toNat) : Writing chunkSize (data ++ more) (w.writePipe more) := by
  refine ⟨⟨hfilled.size_eq, hfilled.isOpen, hfilled.ended, hfilled.nonempty, hfilled.full⟩,
    .inr ⟨writes ++ [more], ⟨?_, ?_, ?_, ?_⟩, ?_⟩⟩
  · rw [ChunkWriter.writePipe, hcur.pipe_eq]
    rfl
  · exact forall_mem_append.mpr ⟨hcur.nonempty, forall_mem_singleton.mpr hne⟩
  · intro hne0
    obtain ⟨hwritten, -⟩ := hcur.room hne0
    have hfit := hfits hne0
    have hlt := chunkSize.toNat_lt
    rw [flatten_append, flatten_singleton, List.length_append]
    refine ⟨?_, hfit⟩
    show (w.written + UInt64.ofNat more.length).toNat = _
    rw [UInt64.toNat_add, UInt64.toNat_ofNat', hwritten]
    omega
  · rw [← hcur.data_eq, flatten_append, flatten_singleton, ← append_assoc]
    rfl
  · rw [flatten_append, flatten_singleton]
    exact List.append_ne_nil_of_right_ne_nil _ hne

/-- A round writes at least one byte, and what it writes fits. -/
theorem Current.writeSize (hcur : Current chunkSize data writes w) (hfilled : Filled chunkSize w)
    (hroom : chunkSize ≠ 0 → writes.flatten.length < chunkSize.toNat) (hne : more ≠ []) :
    0 < w.writeSize more ∧
      (chunkSize ≠ 0 → writes.flatten.length + w.writeSize more ≤ chunkSize.toNat) := by
  have hpos := List.length_pos_of_ne_nil hne
  rw [ChunkWriter.writeSize, hfilled.size_eq]
  split_ifs with h0
  · exact ⟨by omega, fun hne0 => absurd h0 hne0⟩
  · obtain ⟨hwritten, hle⟩ := hcur.room h0
    have hlt := hroom h0
    rw [UInt64.toNat_sub_of_le _ _ (UInt64.le_iff_toNat_le.mpr (by omega)), hwritten]
    exact ⟨by omega, fun _ => by omega⟩

/-- **The loop** writes everything, whatever its bound is, as long as it is large enough. -/
theorem Writing.writeLoop {fuel : ℕ} (h : Writing chunkSize data w) (hfuel : more.length ≤ fuel)
    (nTotal : ℕ) : ∃ w', (writeLoop fuel more nTotal).run w = .ok (nTotal + more.length) w' ∧
      Writing chunkSize (data ++ more) w' := by
  induction fuel generalizing data more w nTotal with
  | zero =>
    obtain rfl : more = [] := List.length_eq_zero_iff.mp (by omega)
    exact ⟨w, rfl, by rwa [List.append_nil]⟩
  | succ fuel ih =>
    cases more with
    | nil => exact ⟨w, rfl, by rwa [List.append_nil]⟩
    | cons b more =>
      obtain ⟨hfilled, writes, hcur, hroom⟩ := h.openChunk
      obtain ⟨hpos, hfits⟩ := hcur.writeSize hfilled hroom (List.cons_ne_nil b more)
      have hle : w.openChunk.writeSize (b :: more) ≤ (b :: more).length := Nat.min_le_right _ _
      have hround : (ChunkWriter.writeLoop (fuel + 1) (b :: more) nTotal).run w =
          (ChunkWriter.writeLoop fuel ((b :: more).drop (w.openChunk.writeSize (b :: more)))
            (nTotal + w.openChunk.writeSize (b :: more))).run
          (w.openChunk.writePipe ((b :: more).take (w.openChunk.writeSize (b :: more)))) := rfl
      rw [hround]
      generalize w.openChunk.writeSize (b :: more) = n at hpos hfits hle ⊢
      have htaken : ((b :: more).take n).length = n := by rw [List.length_take, min_eq_left hle]
      have hstep : Writing chunkSize (data ++ (b :: more).take n)
          (w.openChunk.writePipe ((b :: more).take n)) :=
        hcur.writePipe hfilled (List.ne_nil_of_length_pos (by omega)) (by rwa [htaken])
      have hleft : ((b :: more).drop n).length ≤ fuel := by
        rw [List.length_drop]
        omega
      obtain ⟨w', hrun, hw'⟩ := ih hstep hleft (nTotal + n)
      rw [append_assoc, List.take_append_drop] at hw'
      refine ⟨w', ?_, hw'⟩
      rw [hrun, List.length_drop, Nat.add_assoc, Nat.add_sub_cancel' hle]

/-- **`Write`** returns the number of its bytes. -/
theorem Writing.write (h : Writing chunkSize data w) (more : Bytes) :
    ∃ w', (write more).run w = .ok (.ok more.length) w' ∧ Writing chunkSize (data ++ more) w' := by
  obtain ⟨w', hrun, hw'⟩ := h.writeLoop (le_refl more.length) 0
  refine ⟨w', ?_, hw'⟩
  rw [ChunkWriter.write, EStateM.run_bind, EStateM.run_get]
  dsimp only
  rw [h.filled.isOpen, if_neg Bool.false_ne_true, EStateM.run_bind, hrun, Nat.zero_add]
  rfl

/-- **The run lemma**: every `Write` returns the number of its bytes. -/
theorem Writing.outcomes (h : Writing chunkSize data w) (writes : List Bytes) :
    (outcomes ChunkWriter.write writes w).1 = writes.map (fun more => .ok (.ok more.length)) ∧
      Writing chunkSize (data ++ writes.flatten) (outcomes ChunkWriter.write writes w).2 := by
  induction writes generalizing data w with
  | nil => exact ⟨rfl, by rwa [List.flatten_nil, List.append_nil]⟩
  | cons more writes ih =>
    obtain ⟨w', hrun, hw'⟩ := h.write more
    obtain ⟨hanswers, hwriting⟩ := ih hw'
    rw [MelodiaStore.outcomes, outcome_of_ok hrun, flatten_cons, ← append_assoc]
    exact ⟨congrArg (List.cons _) hanswers, hwriting⟩

/-- The writer after some writes. -/
def afterWrites (chunkSize : UInt64) (writes : List Bytes) : ChunkWriter :=
  (MelodiaStore.outcomes ChunkWriter.write writes (newChunkWriter chunkSize)).2

/-- What was written is in the pipes. -/
theorem writing_afterWrites (chunkSize : UInt64) (writes : List Bytes) :
    Writing chunkSize writes.flatten (afterWrites chunkSize writes) :=
  ((writing_newChunkWriter chunkSize).outcomes writes).2

end ChunkWriter

/-! ### What is read -/

variable {ps : List Pipe} {data : Bytes} {e : ReadError} {p : Pipe}

/-- The bytes of some pipes. -/
def allContent (ps : List Pipe) : Bytes := (ps.map Pipe.content).flatten

/-- The error at the end of some pipes: the last one ends with it, and the others with `io.EOF`. -/
def EndsWith (e : ReadError) : List Pipe → Prop
  | [] => e = .eof
  | [p] => p.ending = e
  | p :: q :: ps => p.ending = .eof ∧ EndsWith e (q :: ps)

theorem endsWith_append (p : Pipe) (hps : ∀ q ∈ ps, q.ending = .eof) :
    EndsWith p.ending (ps ++ [p]) := by
  induction ps with
  | nil => rfl
  | cons q ps ih =>
    have hrest := ih fun x hx => hps x (mem_cons_of_mem q hx)
    cases ps with
    | nil | cons r ps => exact ⟨hps q mem_cons_self, hrest⟩

/-- Pipes whose bytes and whose error at the end are given. -/
structure Carries (data : Bytes) (e : ReadError) (ps : List Pipe) : Prop where
  contents_eq : allContent ps = data
  endsWith : EndsWith e ps
  nonempty : ∀ p ∈ ps, ∀ write ∈ p.writes, write ≠ []

namespace ChunkWriter

variable {chunkSize : UInt64} {data : Bytes} {w : ChunkWriter} {writes : List Bytes}

/-- The pipes of a writer that is closed, with an error or without. -/
theorem Current.carries (hcur : Current chunkSize data writes w) (hfilled : Filled chunkSize w)
    (e : ReadError) : Carries data e (w.sent ++ [⟨writes, e⟩]) where
  contents_eq := by
    rw [← hcur.data_eq, allContent, List.map_append, flatten_append]
    exact congrArg _ (List.append_nil _)
  endsWith := endsWith_append ⟨writes, e⟩ hfilled.ended
  nonempty := forall_mem_append.mpr
    ⟨hfilled.nonempty, forall_mem_singleton.mpr hcur.nonempty⟩

/-- `Close` ends the current pipe. -/
theorem Filled.close_of_current (hfilled : Filled chunkSize w)
    (hcur : Current chunkSize data writes w) : w.close.sent = w.sent ++ [⟨writes, .eof⟩] := by
  rw [close, hfilled.isOpen, if_neg Bool.false_ne_true, closePipe, hcur.pipe_eq]

/-- `Close` without a pipe. -/
theorem Filled.close_of_none (hfilled : Filled chunkSize w) (hnone : w.pipe = none) :
    w.close.sent = w.sent := by
  rw [close, hfilled.isOpen, if_neg Bool.false_ne_true, closePipe, hnone]

/-- **`Close`** leaves the data cut into chunks. -/
theorem Writing.close (h : Writing chunkSize data w) :
    IsChunking chunkSize.toNat data (w.close.sent.map Pipe.content) ∧
      Carries data .eof w.close.sent := by
  obtain ⟨hfilled, hcurrent⟩ := h
  rcases hcurrent with ⟨hnone, hsent, rfl⟩ | ⟨writes, hcur, hne⟩
  · rw [hfilled.close_of_none hnone, hsent]
    exact ⟨IsChunking.nil _, rfl, rfl, fun _ h => absurd h not_mem_nil⟩
  · rw [hfilled.close_of_current hcur]
    refine ⟨?_, hcur.carries hfilled .eof⟩
    rw [List.map_append, ← hcur.data_eq]
    refine IsChunking.snoc ?_ (List.length_pos_of_ne_nil hne) ?_
    · intro c hc
      obtain ⟨p, hp, rfl⟩ := List.mem_map.mp hc
      exact hfilled.full p hp
    · intro hne0
      exact (hcur.room fun h0 => hne0 (by rw [h0]; rfl)).2

/-- **`CloseWithError`** leaves pipes that carry the data and then the error. -/
theorem Writing.closeWithError (h : Writing chunkSize data w) (e : ReadError) :
    Carries data e (w.closeWithError e).sent := by
  obtain ⟨hfilled, hcurrent⟩ := h
  rcases hcurrent with ⟨hnone, hsent, rfl⟩ | ⟨writes, hcur, -⟩
  · have heq : (w.closeWithError e).sent = [⟨[], e⟩] := by
      simp [ChunkWriter.closeWithError, chunk, closePipe, hfilled.isOpen, hnone, hsent]
    rw [heq]
    exact ⟨rfl, rfl, forall_mem_singleton.mpr fun _ h => absurd h not_mem_nil⟩
  · have heq : (w.closeWithError e).sent = w.sent ++ [⟨writes, e⟩] := by
      simp [ChunkWriter.closeWithError, closePipe, hfilled.isOpen, hcur.pipe_eq]
    rw [heq]
    exact hcur.carries hfilled e

end ChunkWriter

theorem Carries.tail (h : Carries data e (p :: ps)) (hp : p.writes = []) (heof : p.ending = .eof) :
    Carries data e ps where
  contents_eq := by
    rw [← h.contents_eq, allContent, allContent, map_cons, flatten_cons, Pipe.content, hp]
    rfl
  endsWith := by
    have hend := h.endsWith
    cases ps with
    | nil => exact hend.symm.trans heof
    | cons q ps => exact hend.2
  nonempty q hq := h.nonempty q (mem_cons_of_mem p hq)

/-- A pipe is shortened by what was read of it. -/
theorem Carries.cons {piece : Bytes} (h : Carries data e (p :: ps)) {writes : List Bytes}
    (hcontent : p.content = piece ++ writes.flatten) (hwrites : ∀ write ∈ writes, write ≠ []) :
    ∃ rest, data = piece ++ rest ∧ Carries rest e ({ p with writes } :: ps) := by
  refine ⟨allContent ({ p with writes } :: ps), ?_, rfl, ?_, ?_⟩
  · rw [← h.contents_eq, allContent, allContent, map_cons, map_cons, flatten_cons,
      flatten_cons, hcontent, append_assoc]
    rfl
  · have hend := h.endsWith
    cases ps with
    | nil => exact hend
    | cons q ps => exact hend
  · intro q hq
    rcases List.mem_cons.mp hq with rfl | hq
    · exact hwrites
    · exact h.nonempty q (mem_cons_of_mem p hq)

namespace ChunkReader

variable {data : Bytes} {e : ReadError} {size : ℕ} {r : ChunkReader} {p : Pipe} {ch : List Pipe}

/-- The pipes a reader has in front of it. -/
def ahead (r : ChunkReader) : List Pipe := r.reader.toList ++ r.ch

/-- What a read may do: at the end it reports the error, and before it some bytes. -/
def Answers (data : Bytes) (e : ReadError) (answer : Bytes × Option ReadError)
    (r : ChunkReader) : Prop :=
  data = [] ∧ answer = ([], some e) ∧ Carries [] e r.ahead ∨
    ∃ piece rest, piece ≠ [] ∧ data = piece ++ rest ∧ answer = (piece, none) ∧
      Carries rest e r.ahead

theorem readFrom_of_read {p' : Pipe} {piece : Bytes} (h : p.read size = (piece, none, p'))
    (ch : List Pipe) : readFrom size p ch = ((piece, none), ⟨ch, some p'⟩) := by
  cases ch with
  | nil => rw [readFrom, h]
  | cons q ch => rw [readFrom, h]

/-- A pipe that has something is read. -/
theorem readFrom_answers_of_cons (hsize : 0 < size) {write : Bytes} {writes : List Bytes}
    (hp : p.writes = write :: writes) (h : Carries data e (p :: ch)) :
    Answers data e (readFrom size p ch).1 (readFrom size p ch).2 := by
  have hall := h.nonempty p mem_cons_self
  rw [hp] at hall
  have hne := hall write mem_cons_self
  have hwrites : ∀ x ∈ writes, x ≠ [] := fun x hx => hall x (mem_cons_of_mem write hx)
  have hcontent : p.content = write ++ writes.flatten := by
    rw [Pipe.content, hp, flatten_cons]
  by_cases hle : write.length ≤ size
  · have hread : p.read size = (write, none, { p with writes }) := by
      rw [Pipe.read, hp]
      exact if_pos hle
    rw [readFrom_of_read hread]
    obtain ⟨rest, hdata, hrest⟩ := h.cons hcontent hwrites
    exact .inr ⟨write, rest, hne, hdata, rfl, hrest⟩
  · have hread : p.read size =
        (write.take size, none, { p with writes := write.drop size :: writes }) := by
      rw [Pipe.read, hp]
      exact if_neg hle
    rw [readFrom_of_read hread]
    have htake : write.take size ≠ [] := by
      apply List.ne_nil_of_length_pos
      rw [List.length_take]
      omega
    have hdrop : write.drop size ≠ [] := by
      apply List.ne_nil_of_length_pos
      rw [List.length_drop]
      omega
    have hsplit : p.content = write.take size ++ (write.drop size :: writes).flatten := by
      rw [hcontent, flatten_cons, ← append_assoc, List.take_append_drop]
    obtain ⟨rest, hdata, hrest⟩ := h.cons hsplit (List.forall_mem_cons.mpr ⟨hdrop, hwrites⟩)
    exact .inr ⟨_, rest, htake, hdata, rfl, hrest⟩

/-- A read answers with the next piece. -/
theorem readFrom_answers (hsize : 0 < size) (h : Carries data e (p :: ch)) :
    Answers data e (readFrom size p ch).1 (readFrom size p ch).2 := by
  induction ch generalizing p with
  | nil =>
    cases hp : p.writes with
    | cons write writes => exact readFrom_answers_of_cons hsize hp h
    | nil =>
      have hdata : data = [] := by
        rw [← h.contents_eq, allContent, List.map_singleton, flatten_singleton,
          Pipe.content, hp]
        rfl
      obtain rfl : p.ending = e := h.endsWith
      by_cases heof : p.ending = .eof
      · have hread : readFrom size p [] = (([], some .eof), ⟨[], none⟩) := by
          rw [readFrom, Pipe.read, hp]
          simp [heof]
        rw [hread]
        exact .inl ⟨hdata, by rw [heof], hdata ▸ h.tail hp heof⟩
      · have hread : readFrom size p [] = (([], some p.ending), ⟨[], some p⟩) := by
          rw [readFrom, Pipe.read, hp]
          cases hend : p.ending with
          | eof => exact absurd hend heof
          | other message => rfl
        rw [hread]
        exact .inl ⟨hdata, rfl, hdata ▸ h⟩
  | cons q ch ih =>
    cases hp : p.writes with
    | cons write writes => exact readFrom_answers_of_cons hsize hp h
    | nil =>
      have heof : p.ending = .eof := h.endsWith.1
      have hread : readFrom size p (q :: ch) = readFrom size q ch := by
        rw [readFrom, Pipe.read, hp]
        simp [heof]
      rw [hread]
      exact ih (h.tail hp heof)

/-- **The step lemma**: a read with a buffer that is not empty. -/
theorem read_answers (hsize : 0 < size) (h : Carries data e r.ahead) :
    Answers data e (r.read size).1 (r.read size).2 := by
  obtain ⟨ch, reader⟩ := r
  cases reader with
  | some p => exact readFrom_answers hsize h
  | none =>
    cases ch with
    | cons p ch => exact readFrom_answers hsize h
    | nil =>
      obtain rfl : e = .eof := h.endsWith
      obtain rfl : [] = data := h.contents_eq
      exact .inl ⟨rfl, rfl, h⟩

/-- The answers of a reader: pieces of the data, none of them empty, and then the error for ever,
once all the data was read, which happens at the latest when there are more reads than bytes. -/
def Delivers (data : Bytes) (e : ReadError) (answers : List (Bytes × Option ReadError)) : Prop :=
  ∃ (pieces : List Bytes) (k : ℕ),
    answers = pieces.map (fun piece => (piece, none)) ++ List.replicate k ([], some e) ∧
    (∀ piece ∈ pieces, piece ≠ []) ∧ pieces.flatten <+: data ∧
    (0 < k → pieces.flatten = data) ∧ (data.length < answers.length → 0 < k)

/-- **The run lemma**: whatever the sizes of the buffers are, the reader gets the data and then the
error. -/
theorem reads_delivers {sizes : List ℕ} (hsizes : ∀ size ∈ sizes, 0 < size)
    (h : Carries data e r.ahead) : Delivers data e (reads sizes r) := by
  induction sizes generalizing r data with
  | nil =>
    refine ⟨[], 0, rfl, fun _ h => absurd h not_mem_nil, List.nil_prefix, ?_, ?_⟩
    · intro hpos
      omega
    · intro hlt
      exact absurd hlt (Nat.not_lt_zero _)
  | cons size sizes ih =>
    have hrest : ∀ x ∈ sizes, 0 < x := fun x hx => hsizes x (mem_cons_of_mem size hx)
    rcases read_answers (hsizes size mem_cons_self) h with
      ⟨rfl, hanswer, hcarries⟩ | ⟨piece, rest, hne, rfl, hanswer, hcarries⟩
    · obtain ⟨pieces, k, hanswers, hpieces, hpfx, -, -⟩ := ih hrest hcarries
      -- no piece of no data is left
      obtain rfl : pieces = [] := by
        cases pieces with
        | nil => rfl
        | cons piece pieces =>
          have := List.prefix_nil.mp hpfx
          rw [flatten_cons, List.append_eq_nil_iff] at this
          exact absurd this.1 (hpieces piece mem_cons_self)
      refine ⟨[], k + 1, ?_, hpieces, hpfx, fun _ => rfl, fun _ => Nat.succ_pos k⟩
      rw [reads, hanswer, hanswers, List.replicate_succ]
      rfl
    · obtain ⟨pieces, k, hanswers, hpieces, hpfx, hall, henough⟩ := ih hrest hcarries
      refine ⟨piece :: pieces, k, ?_, List.forall_mem_cons.mpr ⟨hne, hpieces⟩, ?_, ?_, ?_⟩
      · rw [reads, hanswer, hanswers]
        rfl
      · rw [flatten_cons]
        exact (List.prefix_append_right_inj piece).mpr hpfx
      · intro hk
        rw [flatten_cons, hall hk]
      · intro hlt
        have hpos := List.length_pos_of_ne_nil hne
        rw [reads, List.length_cons, List.length_append] at hlt
        exact henough (by omega)

end ChunkReader

/-! ### From the writer to the reader -/

/-- What a reader sees of a pipe when the error overtakes the last writes. -/
def Pipe.cut (n : ℕ) (p : Pipe) : Pipe :=
  if p.ending = .eof then p else { p with writes := p.writes.take n }

theorem Pipe.cut_of_eof (n : ℕ) (h : p.ending = .eof) : p.cut n = p := if_pos h

theorem Pipe.ending_cut (n : ℕ) (p : Pipe) : (p.cut n).ending = p.ending := by
  rw [cut]
  split <;> rfl

/-- A cut loses an end. -/
theorem Pipe.content_cut_isPrefix (n : ℕ) (p : Pipe) : (p.cut n).content <+: p.content := by
  rw [cut]
  split
  · exact List.prefix_rfl
  · have hsplit := congrArg List.flatten (List.take_append_drop n p.writes)
    rw [flatten_append] at hsplit
    exact ⟨_, hsplit⟩

theorem Pipe.mem_of_mem_writes_cut {n : ℕ} {write : Bytes} (h : write ∈ (p.cut n).writes) :
    write ∈ p.writes := by
  rw [cut] at h
  split at h
  · exact h
  · exact List.mem_of_mem_take h

/-- Pipes that are cut carry a first part of the data, and the same error. -/
theorem Carries.cut (h : Carries data e ps) (n : ℕ) :
    ∃ data', data' <+: data ∧ Carries data' e (ps.map (Pipe.cut n)) := by
  refine ⟨allContent (ps.map (Pipe.cut n)), ?_, rfl, ?_, ?_⟩
  · rw [← h.contents_eq]
    have hend := h.endsWith
    clear h
    induction ps with
    | nil => exact List.prefix_rfl
    | cons p ps ih =>
      cases ps with
      | nil =>
        rw [allContent, allContent, List.map_singleton, List.map_singleton, List.map_singleton,
          flatten_singleton, flatten_singleton]
        exact p.content_cut_isPrefix n
      | cons q ps =>
        have hrest := ih hend.2
        rw [allContent, allContent] at hrest ⊢
        rw [map_cons, map_cons (f := Pipe.content), flatten_cons,
          map_cons (f := Pipe.content), flatten_cons, Pipe.cut_of_eof n hend.1]
        exact (List.prefix_append_right_inj p.content).mpr hrest
  · have hend := h.endsWith
    clear h
    induction ps with
    | nil => exact hend
    | cons p ps ih =>
      cases ps with
      | nil => exact (p.ending_cut n).trans hend
      | cons q ps => exact ⟨(p.ending_cut n).trans hend.1, ih hend.2⟩
  · intro p hp write hwrite
    obtain ⟨q, hq, rfl⟩ := List.mem_map.mp hp
    exact h.nonempty q hq write (Pipe.mem_of_mem_writes_cut hwrite)

section Lossless

open ChunkWriter ChunkReader

/-- **Chunking is canonical and lossless.** Every `Write` returns the number of its bytes. After
`Close` the chunks are the data cut into pieces of the chunk size, whatever the writes were, and a
reader gets the data and `io.EOF`. After `CloseWithError` a reader gets a first part of the data
and the error. -/
theorem chunkStream_lossless (chunkSize : UInt64) (writes : List Bytes) {sizes : List ℕ}
    (hsizes : ∀ size ∈ sizes, 0 < size) :
    (outcomes write writes (newChunkWriter chunkSize)).1 =
        writes.map (fun data => .ok (.ok data.length)) ∧
      IsChunking chunkSize.toNat writes.flatten
        ((afterWrites chunkSize writes).close.sent.map Pipe.content) ∧
      (chunkSize = 0 → ((afterWrites chunkSize writes).close.sent.map Pipe.content).length ≤ 1) ∧
      (∀ writes' : List Bytes, writes'.flatten = writes.flatten →
        (afterWrites chunkSize writes').close.sent.map Pipe.content =
          (afterWrites chunkSize writes).close.sent.map Pipe.content) ∧
      Delivers writes.flatten .eof
        (reads sizes (newChunkReader (afterWrites chunkSize writes).close.sent)) ∧
      ∀ e, e ≠ .eof → ∀ n, ∃ data, data <+: writes.flatten ∧ Delivers data e (reads sizes
        (newChunkReader (((afterWrites chunkSize writes).closeWithError e).sent.map
          (Pipe.cut n)))) := by
  obtain ⟨hchunks, hcarries⟩ := (writing_afterWrites chunkSize writes).close
  refine ⟨((writing_newChunkWriter chunkSize).outcomes writes).1, hchunks, ?_, ?_,
    reads_delivers hsizes hcarries, ?_⟩
  · rintro rfl
    exact hchunks.length_le_one
  · intro writes' heq
    have hchunks' := (writing_afterWrites chunkSize writes').close.1
    rw [heq] at hchunks'
    exact hchunks'.unique hchunks
  · intro e _ n
    obtain ⟨data, hpfx, hcut⟩ := ((writing_afterWrites chunkSize writes).closeWithError e).cut n
    exact ⟨data, hpfx, reads_delivers hsizes hcut⟩

/-- Five bytes in chunks of two, written in two parts and read in three. -/
theorem chunkStream_lossless_of_five :
    IsChunking 2 [1, 2, 3, 4, 5]
        ((afterWrites 2 [[1, 2, 3], [4, 5]]).close.sent.map Pipe.content) ∧
      Delivers [1, 2, 3, 4, 5] .eof
        (reads [1, 3, 2, 4, 1, 1]
          (newChunkReader (afterWrites 2 [[1, 2, 3], [4, 5]]).close.sent)) := by
  have h := @chunkStream_lossless 2 [[1, 2, 3], [4, 5]] [1, 3, 2, 4, 1, 1] (by decide)
  exact ⟨h.2.1, h.2.2.2.2.1⟩

end Lossless

end MelodiaStore
