import MelodiaStore.ChunkStream

/-!
# Chunk Readers over Any Reader

`ChunkReader` of `snapshots/chunk.go` takes any `io.ReadCloser` for a chunk, not only the pipes of
a `ChunkWriter`. A reader may return fewer bytes than the buffer holds, even none, and it may
return `io.EOF` together with its last bytes or alone in the next call. `ChunkReader.Read` closes
the chunk at `io.EOF` and reads from the next one into the same buffer; the bytes that came
together with `io.EOF` are overwritten.

The contract of `io.Reader` is the class `ConformingReader`. Buffers are a sequence of positive
sizes.

## Main results

* `delivered_iff`: the chunks are delivered exactly if no reader returns bytes together with
  `io.EOF`, and each can be closed.
-/

namespace MelodiaStore

/-! ### Readers -/

/-- `io.ReadCloser`: `Read` with a buffer of a size, and `Close`. -/
class ReadCloser (ρ : Type) where
  read : ρ → ℕ → (Bytes × Option ReadError) × ρ
  close : ρ → Option String

/-- **The contract of `io.Reader`** for a reader without an error of its own. The bytes it still
has are handed out in order, no more than fit; `io.EOF` comes when there are none left, with the
last bytes or alone. A read may return nothing at all, but not for ever. -/
class ConformingReader (ρ : Type) extends ReadCloser ρ where
  content : ρ → Bytes
  length_le : ∀ r size, 0 < size → (read r size).1.1.length ≤ size
  content_eq : ∀ r size, 0 < size → content r = (read r size).1.1 ++ content (read r size).2
  err_eq : ∀ r size, 0 < size → (read r size).1.2 = none ∨
    (read r size).1.2 = some .eof ∧ content (read r size).2 = []
  stalls : WellFounded fun r' r => ∃ size, 0 < size ∧ read r size = (([], none), r')

open ConformingReader (content content_eq err_eq)

/-- `snapshots.ChunkReader` on a channel of readers. -/
structure ChunkReaderOf (ρ : Type) where
  ch : List ρ
  reader : Option ρ

namespace ChunkReaderOf

variable {ρ : Type}

/-- `snapshots.NewChunkReader`. -/
def newChunkReader (ch : List ρ) : ChunkReaderOf ρ := ⟨ch, none⟩

/-- `ChunkReader.Read` from a reader, and from the next ones if it is at its end. -/
def readFrom [ReadCloser ρ] (size : ℕ) :
    ρ → List ρ → (Bytes × Option ReadError) × ChunkReaderOf ρ
  | reader, ch =>
    match ReadCloser.read reader size with
    | ((_, some .eof), reader') =>
      match ReadCloser.close reader' with
      | some e => (([], some (.other e)), ⟨ch, none⟩)
      | none =>
        match ch with
        | [] => (([], some .eof), ⟨[], none⟩)
        | next :: ch => readFrom size next ch
    | (answer, reader') => (answer, ⟨ch, some reader'⟩)

/-- `ChunkReader.Read` with a buffer of `size` bytes. -/
def read [ReadCloser ρ] (r : ChunkReaderOf ρ) (size : ℕ) :
    (Bytes × Option ReadError) × ChunkReaderOf ρ :=
  match r.reader, r.ch with
  | some reader, ch => readFrom size reader ch
  | none, reader :: ch => readFrom size reader ch
  | none, [] => (([], some .eof), r)

/-- The readers that are in front. -/
def ahead (r : ChunkReaderOf ρ) : List ρ := r.reader.toList ++ r.ch

section Read

variable [ReadCloser ρ] {r : ChunkReaderOf ρ} {reader reader' : ρ} {rest : List ρ} {size : ℕ}
  {data : Bytes}

theorem read_of_nil (h : r.ahead = []) :
    (r.read size).1 = ([], some .eof) ∧ (r.read size).2.ahead = [] := by
  obtain ⟨ch, current⟩ := r
  cases current with
  | some reader => cases h
  | none =>
    obtain rfl : ch = [] := h
    exact ⟨rfl, rfl⟩

section

variable (h : r.ahead = reader :: rest)
include h

theorem read_of_cons : r.read size = readFrom size reader rest := by
  obtain ⟨ch, current⟩ := r
  cases current with
  | some current =>
    obtain ⟨rfl, rfl⟩ : current = reader ∧ ch = rest := by simpa [ahead] using h
    rfl
  | none =>
    obtain rfl : ch = reader :: rest := h
    rfl

/-- A reader that goes on. -/
theorem read_of_more (hread : ReadCloser.read reader size = ((data, none), reader')) :
    r.read size = ((data, none), ⟨rest, some reader'⟩) := by
  rw [read_of_cons h, readFrom.eq_def]
  dsimp only
  rw [hread]

variable (hread : ReadCloser.read reader size = ((data, some .eof), reader'))
include hread

/-- A reader that cannot be closed. -/
theorem read_of_close {e : String} (hclose : ReadCloser.close reader' = some e) :
    r.read size = (([], some (.other e)), ⟨rest, none⟩) := by
  rw [read_of_cons h, readFrom.eq_def]
  dsimp only
  rw [hread]
  dsimp only
  rw [hclose]

/-- A reader at its end: the read is one from the next reader, and what came with `io.EOF` is not
in the answer. -/
theorem read_of_eof (hclose : ReadCloser.close reader' = none) :
    (r.read size).1 = ((newChunkReader rest).read size).1 ∧
      (r.read size).2.ahead = ((newChunkReader rest).read size).2.ahead := by
  rw [read_of_cons h, readFrom.eq_def]
  dsimp only
  rw [hread]
  dsimp only
  rw [hclose]
  cases rest with
  | nil => exact ⟨rfl, rfl⟩
  | cons next rest => exact ⟨rfl, rfl⟩

end

end Read

/-! ### Pipes -/

/-- The reading end of a pipe; `PipeReader.Close` returns `nil`. -/
instance instReadCloserPipe : ReadCloser Pipe where
  read p size := (((p.read size).1, (p.read size).2.1), (p.read size).2.2)
  close _ := none

/-- A chunk reader on pipes. -/
def ofPipes (r : ChunkReader) : ChunkReaderOf Pipe := ⟨r.ch, r.reader⟩

theorem readFrom_eq_of_pipes (size : ℕ) (p : Pipe) (ch : List Pipe) :
    readFrom size p ch =
      ((ChunkReader.readFrom size p ch).1, ofPipes (ChunkReader.readFrom size p ch).2) := by
  induction ch generalizing p with
  | nil =>
    rw [readFrom, ChunkReader.readFrom]
    dsimp only [ReadCloser.read, ReadCloser.close]
    obtain ⟨data, err, p'⟩ := p.read size
    cases err with
    | none => rfl
    | some e => cases e <;> rfl
  | cons q ch ih =>
    rw [readFrom, ChunkReader.readFrom]
    dsimp only [ReadCloser.read, ReadCloser.close]
    obtain ⟨data, err, p'⟩ := p.read size
    cases err with
    | none => rfl
    | some e =>
      cases e with
      | eof => exact ih q
      | other message => rfl

/-- **On pipes** this is the reader of the chunk streams. -/
theorem read_eq_of_pipes (r : ChunkReader) (size : ℕ) :
    (ofPipes r).read size = ((r.read size).1, ofPipes (r.read size).2) := by
  obtain ⟨ch, reader⟩ := r
  cases reader with
  | some p => exact readFrom_eq_of_pipes size p ch
  | none =>
    cases ch with
    | nil => rfl
    | cons p ch => exact readFrom_eq_of_pipes size p ch

/-! ### What is delivered -/

/-- The answer to the `k`-th read, with buffers of the given sizes. -/
def answers [ReadCloser ρ] (sizes : ℕ → ℕ) (r : ChunkReaderOf ρ) : ℕ → Bytes × Option ReadError
  | 0 => (r.read (sizes 0)).1
  | k + 1 => answers (fun n => sizes (n + 1)) (r.read (sizes 0)).2 k

/-- The answers are some bytes without an error, which are the data when put together, and then
`io.EOF` for ever. -/
def Delivered [ReadCloser ρ] (sizes : ℕ → ℕ) (r : ChunkReaderOf ρ) (data : Bytes) : Prop :=
  ∃ k, (∀ i < k, (answers sizes r i).2 = none) ∧
    ((List.range k).map fun i => (answers sizes r i).1).flatten = data ∧
    ∀ i, k ≤ i → answers sizes r i = ([], some .eof)

section Delivered

variable [ReadCloser ρ] {sizes : ℕ → ℕ} {r r' : ChunkReaderOf ρ} {data piece : Bytes}

/-- A read depends on what is ahead. -/
theorem read_congr (h : r.ahead = r'.ahead) (size : ℕ) :
    (r.read size).1 = (r'.read size).1 ∧ (r.read size).2.ahead = (r'.read size).2.ahead := by
  cases hahead : r'.ahead with
  | nil =>
    obtain ⟨hanswer, hnext⟩ := @read_of_nil _ _ r size (h.trans hahead)
    obtain ⟨hanswer', hnext'⟩ := @read_of_nil _ _ r' size hahead
    exact ⟨hanswer.trans hanswer'.symm, hnext.trans hnext'.symm⟩
  | cons reader rest =>
    rw [read_of_cons (h.trans hahead), read_of_cons hahead]
    exact ⟨rfl, rfl⟩

/-- The answers only depend on the first of them and the readers that are in front behind it. -/
theorem answers_congr (h : (r.read (sizes 0)).1 = (r'.read (sizes 0)).1)
    (hnext : (r.read (sizes 0)).2.ahead = (r'.read (sizes 0)).2.ahead) :
    answers sizes r = answers sizes r' := by
  funext k
  induction k generalizing sizes r r' with
  | zero => exact h
  | succ k ih =>
    obtain ⟨hanswer, hahead⟩ := read_congr hnext (sizes 1)
    exact ih hanswer hahead

theorem answers_of_nil (h : r.ahead = []) (sizes : ℕ → ℕ) (k : ℕ) :
    answers sizes r k = ([], some .eof) := by
  induction k generalizing sizes r with
  | zero => exact (read_of_nil h).1
  | succ k ih => exact ih (read_of_nil h).2 _

/-- Nothing is delivered of nothing. -/
theorem delivered_of_nil (h : r.ahead = []) : Delivered sizes r data ↔ data = [] := by
  constructor
  · rintro ⟨k, hsome, rfl, -⟩
    cases k with
    | zero => rfl
    | succ k =>
      have hfirst := hsome 0 (Nat.succ_pos k)
      rw [answers_of_nil h] at hfirst
      cases hfirst
  · rintro rfl
    exact ⟨0, fun i hi => absurd hi (Nat.not_lt_zero i), rfl, fun i _ => answers_of_nil h sizes i⟩

/-- A piece, and then the rest. -/
theorem delivered_of_more (hread : r.read (sizes 0) = ((piece, none), r')) :
    Delivered sizes r data ↔
      ∃ rest, data = piece ++ rest ∧ Delivered (fun n => sizes (n + 1)) r' rest := by
  have hfirst : answers sizes r 0 = (piece, none) := congrArg Prod.fst hread
  have hlater : ∀ i, answers sizes r (i + 1) = answers (fun n => sizes (n + 1)) r' i := by
    intro i
    rw [answers, hread]
  have hflatten : ∀ k, ((List.range (k + 1)).map fun i => (answers sizes r i).1).flatten =
      piece ++ ((List.range k).map fun i =>
        (answers (fun n => sizes (n + 1)) r' i).1).flatten := by
    intro k
    rw [List.range_succ_eq_map, List.map_cons, List.flatten_cons, hfirst, List.map_map]
    simp only [Function.comp_def, hlater]
  constructor
  · rintro ⟨k, hsome, rfl, hend⟩
    cases k with
    | zero =>
      have := hend 0 le_rfl
      rw [hfirst] at this
      cases this
    | succ k =>
      refine ⟨_, hflatten k, k, fun i hi => ?_, rfl, fun i hi => ?_⟩
      · rw [← hlater]
        exact hsome (i + 1) (Nat.succ_lt_succ hi)
      · rw [← hlater]
        exact hend (i + 1) (Nat.succ_le_succ hi)
  · rintro ⟨rest, rfl, k, hsome, rfl, hend⟩
    refine ⟨k + 1, fun i hi => ?_, hflatten k, fun i hi => ?_⟩
    · cases i with
      | zero => rw [hfirst]
      | succ i =>
        rw [hlater]
        exact hsome i (Nat.lt_of_succ_lt_succ hi)
    · cases i with
      | zero => exact absurd hi (Nat.not_succ_le_zero k)
      | succ i =>
        rw [hlater]
        exact hend i (Nat.le_of_succ_le_succ hi)

/-- An error that is not `io.EOF` is not delivered as data. -/
theorem not_delivered_of_error {e : String} (h : (r.read (sizes 0)).1 = ([], some (.other e))) :
    ¬ Delivered sizes r data := by
  rintro ⟨k, hsome, -, hend⟩
  have hfirst : answers sizes r 0 = ([], some (.other e)) := h
  cases k with
  | zero =>
    have := hend 0 le_rfl
    rw [hfirst] at this
    cases this
  | succ k =>
    have := hsome 0 (Nat.succ_pos k)
    rw [hfirst] at this
    cases this

end Delivered

/-! ### Readers that come to their end -/

/-- Reading with buffers of the given sizes, a reader comes to `io.EOF`: the sizes from that read
on, the bytes that come with `io.EOF`, and the reader behind it. -/
inductive EndsAt [ReadCloser ρ] : (ℕ → ℕ) → ρ → (ℕ → ℕ) → Bytes → ρ → Prop
  | eof {sizes : ℕ → ℕ} {reader reader' : ρ} {last : Bytes}
      (h : ReadCloser.read reader (sizes 0) = ((last, some .eof), reader')) :
      EndsAt sizes reader sizes last reader'
  | more {sizes sizes' : ℕ → ℕ} {reader reader' reader'' : ρ} {piece last : Bytes}
      (h : ReadCloser.read reader (sizes 0) = ((piece, none), reader'))
      (rest : EndsAt (fun n => sizes (n + 1)) reader' sizes' last reader'') :
      EndsAt sizes reader sizes' last reader''

/-- Read one after the other, no reader returns bytes together with `io.EOF`, and each can be
closed. The read that comes to `io.EOF` is made again on the next reader. -/
def Clean [ReadCloser ρ] : List ρ → (ℕ → ℕ) → Prop
  | [], _ => True
  | reader :: readers, sizes => ∃ sizes' reader', EndsAt sizes reader sizes' [] reader' ∧
      ReadCloser.close reader' = none ∧ Clean readers sizes'

section Conforming

variable [ConformingReader ρ] {sizes sizes' : ℕ → ℕ} {r : ChunkReaderOf ρ} {data : Bytes}
  {reader reader' : ρ} {last : Bytes} {readers : List ρ}

/-- The bytes of the chunks. -/
def contents (readers : List ρ) : Bytes := (readers.map ConformingReader.content).flatten

theorem contents_cons (reader : ρ) (readers : List ρ) :
    contents (reader :: readers) = content reader ++ contents readers := rfl

/-- The two things a read of a reader that follows the contract can do. -/
theorem read_cases (reader : ρ) {size : ℕ} (hsize : 0 < size) :
    ∃ piece reader', content reader = piece ++ content reader' ∧
      (ReadCloser.read reader size = ((piece, some .eof), reader') ∧
          content reader' = [] ∨
        ReadCloser.read reader size = ((piece, none), reader')) := by
  have hcontent := content_eq reader size hsize
  have herr := err_eq reader size hsize
  refine ⟨_, _, hcontent, ?_⟩
  rcases herr with hnone | ⟨heof, hempty⟩
  · exact .inr (Prod.ext (Prod.ext rfl hnone) rfl)
  · exact .inl ⟨Prod.ext (Prod.ext rfl heof) rfl, hempty⟩

/-- **A reader that follows the contract comes to its end.** -/
theorem exists_endsAt (reader : ρ) (hsizes : ∀ n, 0 < sizes n) :
    ∃ sizes' last reader', EndsAt sizes reader sizes' last reader' := by
  induction hlength : (content reader).length using Nat.strong_induction_on
    generalizing reader sizes with
  | h length ihlength =>
    -- among the readers with this content, a read that returns nothing stalls
    induction reader using (@ConformingReader.stalls ρ _).induction generalizing sizes with
    | _ reader ihstall =>
      obtain ⟨piece, reader', hcontent, ⟨heof, -⟩ | hmore⟩ := read_cases reader (hsizes 0)
      · exact ⟨sizes, piece, reader', .eof heof⟩
      · have htail : ∀ n, 0 < sizes (n + 1) := fun n => hsizes (n + 1)
        have hsum : piece.length + (content reader').length = length := by
          rw [← hlength, hcontent, List.length_append]
        by_cases hne : piece = []
        · subst hne
          obtain ⟨sizes', last, reader'', hends⟩ :=
            ihstall reader' ⟨sizes 0, hsizes 0, hmore⟩ htail (by simpa using hsum)
          exact ⟨sizes', last, reader'', .more hmore hends⟩
        · have hpos := List.length_pos_of_ne_nil hne
          obtain ⟨sizes', last, reader'', hends⟩ :=
            ihlength _ (by omega) reader' htail rfl
          exact ⟨sizes', last, reader'', .more hmore hends⟩

section

variable (h : EndsAt sizes reader sizes' last reader')
include h

theorem EndsAt.sizes_pos (hsizes : ∀ n, 0 < sizes n) : ∀ n, 0 < sizes' n := by
  induction h with
  | eof _ => exact hsizes
  | more _ _ ih => exact ih fun n => hsizes (n + 1)

/-- **A chunk that is read to its end**: all its bytes are delivered but those that come with
`io.EOF`, and then those of the next chunks. -/
theorem EndsAt.exists_front (hsizes : ∀ n, 0 < sizes n) (hclose : ReadCloser.close reader' = none)
    (rest : List ρ) :
    ∃ front, content reader = front ++ last ∧
      ∀ (r : ChunkReaderOf ρ) (data : Bytes), r.ahead = reader :: rest →
        (Delivered sizes r data ↔
          ∃ more, data = front ++ more ∧ Delivered sizes' (newChunkReader rest) more) := by
  induction h with
  | @eof sizes reader reader' last hread =>
    have hcontent := content_eq reader (sizes 0) (hsizes 0)
    have herr := err_eq reader (sizes 0) (hsizes 0)
    rw [hread] at hcontent herr
    refine ⟨[], ?_, fun r data hahead => ?_⟩
    · rcases herr with hnone | ⟨-, hempty⟩
      · cases hnone
      · rw [hcontent, hempty, List.append_nil, List.nil_append]
    · obtain ⟨hanswer, hnext⟩ := read_of_eof hahead hread hclose
      rw [Delivered, answers_congr hanswer hnext]
      simp [Delivered]
  | @more sizes sizes' reader reader' reader'' piece last hread _ ih =>
    have hcontent := content_eq reader (sizes 0) (hsizes 0)
    rw [hread] at hcontent
    obtain ⟨front, hfront, hdelivered⟩ := ih (fun n => hsizes (n + 1)) hclose
    refine ⟨piece ++ front, ?_, fun r data hahead => ?_⟩
    · rw [hcontent, List.append_assoc, ← hfront]
    · rw [delivered_of_more (read_of_more hahead hread)]
      constructor
      · rintro ⟨tail, rfl, htail⟩
        obtain ⟨more, rfl, hmore⟩ := (hdelivered ⟨rest, some reader'⟩ tail rfl).mp htail
        exact ⟨more, (List.append_assoc _ _ _).symm, hmore⟩
      · rintro ⟨more, rfl, hmore⟩
        exact ⟨front ++ more, List.append_assoc _ _ _,
          (hdelivered ⟨rest, some reader'⟩ _ rfl).mpr ⟨more, rfl, hmore⟩⟩

/-- A chunk that cannot be closed ends the stream with an error. -/
theorem EndsAt.not_delivered {e : String} (hclose : ReadCloser.close reader' = some e)
    {rest : List ρ} (hahead : r.ahead = reader :: rest) : ¬ Delivered sizes r data := by
  induction h generalizing r data with
  | eof hread =>
    exact not_delivered_of_error (congrArg Prod.fst (read_of_close hahead hread hclose))
  | more hread _ ih =>
    rw [delivered_of_more (read_of_more hahead hread)]
    rintro ⟨tail, -, htail⟩
    exact ih hclose rfl htail

end

/-- **Nothing is lost** where no bytes come with `io.EOF`. -/
theorem delivered_of_clean (hsizes : ∀ n, 0 < sizes n) (h : Clean readers sizes)
    (hahead : r.ahead = readers) : Delivered sizes r (contents readers) := by
  induction readers generalizing sizes r with
  | nil => exact (delivered_of_nil hahead).mpr rfl
  | cons reader rest ih =>
    obtain ⟨sizes', reader', hends, hclose, hrest⟩ := h
    obtain ⟨front, hfront, hdelivered⟩ := hends.exists_front hsizes hclose rest
    rw [List.append_nil] at hfront
    rw [contents_cons, hfront, hdelivered r _ hahead]
    exact ⟨contents rest, rfl, ih (hends.sizes_pos hsizes) hrest rfl⟩

/-- **What is delivered** is everything, or less where bytes come with `io.EOF`. -/
theorem clean_or_lost (hsizes : ∀ n, 0 < sizes n) (hahead : r.ahead = readers)
    (h : Delivered sizes r data) :
    Clean readers sizes ∧ data = contents readers ∨
      data.length < (contents readers).length := by
  induction readers generalizing sizes r data with
  | nil => exact .inl ⟨trivial, (delivered_of_nil hahead).mp h⟩
  | cons reader rest ih =>
    obtain ⟨sizes', last, reader', hends⟩ := exists_endsAt reader hsizes
    cases hclose : ReadCloser.close reader' with
    | some e => exact absurd h (hends.not_delivered hclose hahead)
    | none =>
      obtain ⟨front, hfront, hdelivered⟩ := hends.exists_front hsizes hclose rest
      obtain ⟨more, rfl, hmore⟩ := (hdelivered r data hahead).mp h
      rw [contents_cons, hfront]
      rcases ih (hends.sizes_pos hsizes) rfl hmore with ⟨hclean, rfl⟩ | hlt
      · by_cases hlast : last = []
        · subst hlast
          refine .inl ⟨⟨sizes', reader', hends, hclose, hclean⟩, ?_⟩
          rw [List.append_nil]
        · have hpos := List.length_pos_of_ne_nil hlast
          simp only [List.length_append]
          omega
      · simp only [List.length_append]
        omega

end Conforming

end ChunkReaderOf

open ChunkReaderOf

/-! ### Files -/

/-- An `os.File`, with the bytes that are still to be read. `LoadChunk` of the snapshot store hands
chunks out as files. -/
structure FileReader where
  data : Bytes

/-- A file returns `io.EOF` alone, when all its bytes have been read. -/
def FileReader.read (r : FileReader) (size : ℕ) : (Bytes × Option ReadError) × FileReader :=
  if r.data = [] then (([], some .eof), r) else ((r.data.take size, none), ⟨r.data.drop size⟩)

instance instConformingReaderFileReader : ConformingReader FileReader where
  read := FileReader.read
  close _ := none
  content := FileReader.data
  length_le r size _ := by
    rw [FileReader.read]
    split_ifs with h
    · exact Nat.zero_le size
    · exact List.length_take_le size r.data
  content_eq r size _ := by
    rw [FileReader.read]
    split_ifs with h
    · exact (List.nil_append _).symm
    · exact (List.take_append_drop size r.data).symm
  err_eq r size _ := by
    rw [FileReader.read]
    split_ifs with h
    · exact .inr ⟨rfl, h⟩
    · exact .inl rfl
  stalls := by
    refine ⟨fun r => ⟨r, ?_⟩⟩
    rintro r' ⟨size, hsize, hread⟩
    rw [FileReader.read] at hread
    split_ifs at hread with h
    · cases hread
    · obtain ⟨hanswer, -⟩ := Prod.mk.inj hread
      obtain ⟨htake, -⟩ := Prod.mk.inj hanswer
      rcases List.take_eq_nil_iff.mp htake with rfl | hnil
      · omega
      · exact absurd hnil h

/-- A file ends with an empty read. -/
theorem last_of_file {sizes sizes' : ℕ → ℕ} {file file' : FileReader} {last : Bytes}
    (h : EndsAt sizes file sizes' last file') : last = [] := by
  induction h with
  | @eof sizes file file' last hread =>
    change file.read (sizes 0) = _ at hread
    rw [FileReader.read] at hread
    split_ifs at hread
    · cases hread
      rfl
    · cases hread
  | more _ _ ih => exact ih

/-- **Files lose nothing**, whatever the buffers are. -/
theorem clean_of_files (files : List FileReader) {sizes : ℕ → ℕ} (hsizes : ∀ n, 0 < sizes n) :
    Clean files sizes := by
  induction files generalizing sizes with
  | nil => exact trivial
  | cons file files ih =>
    obtain ⟨sizes', last, file', hends⟩ := exists_endsAt file hsizes
    obtain rfl := last_of_file hends
    exact ⟨sizes', file', hends, rfl, ih (hends.sizes_pos hsizes)⟩

/-! ### What a chunk reader delivers -/

/-- **When a chunk reader loses nothing.** For chunks whose readers follow the contract of
`io.Reader`, and buffers of positive sizes, the reads return the bytes of the chunks one after the
other and then `io.EOF`, if and only if no chunk returns bytes together with `io.EOF` and each can
be closed. -/
theorem delivered_iff {ρ : Type} [ConformingReader ρ] (chunks : List ρ) (sizes : ℕ → ℕ)
    (hsizes : ∀ n, 0 < sizes n) :
    Delivered sizes (newChunkReader chunks) (contents chunks) ↔ Clean chunks sizes := by
  refine ⟨fun h => ?_, fun h => delivered_of_clean hsizes h rfl⟩
  rcases clean_or_lost hsizes rfl h with ⟨hclean, -⟩ | hlt
  · exact hclean
  · exact absurd hlt (Nat.lt_irrefl _)

/-- Two chunks in files, with an empty one between them. -/
theorem delivered_iff_of_two :
    Delivered (fun _ => 4) (newChunkReader [FileReader.mk [1, 2], ⟨[]⟩, ⟨[3]⟩]) [1, 2, 3] := by
  have hsizes : ∀ n : ℕ, 0 < (fun _ => 4 : ℕ → ℕ) n := fun _ => Nat.succ_pos 3
  exact (delivered_iff [FileReader.mk [1, 2], ⟨[]⟩, ⟨[3]⟩] (fun _ => 4) hsizes).mpr
    (clean_of_files _ hsizes)

/-! ### A reader that tells its end at once -/

/-- A reader that returns `io.EOF` together with its last bytes. -/
structure EagerReader where
  data : Bytes

instance instConformingReaderEagerReader : ConformingReader EagerReader where
  read r size :=
    ((r.data.take size, if r.data.length ≤ size then some .eof else none), ⟨r.data.drop size⟩)
  close _ := none
  content := EagerReader.data
  length_le r size _ := List.length_take_le size r.data
  content_eq r size _ := (List.take_append_drop size r.data).symm
  err_eq r size _ := by
    dsimp only
    split_ifs with h
    · exact .inr ⟨rfl, List.drop_eq_nil_of_le h⟩
    · exact .inl rfl
  stalls := by
    refine ⟨fun r => ⟨r, ?_⟩⟩
    -- it never stalls: what returns no bytes returns the end
    rintro r' ⟨size, hsize, hread⟩
    obtain ⟨hanswer, -⟩ := Prod.mk.inj hread
    obtain ⟨htake, herr⟩ := Prod.mk.inj hanswer
    rcases List.take_eq_nil_iff.mp htake with rfl | hnil
    · omega
    · rw [hnil, List.length_nil, if_pos (Nat.zero_le size)] at herr
      cases herr

/-- Two chunks with three bytes. -/
def eagerChunks : List EagerReader := [⟨[1, 2]⟩, ⟨[3]⟩]

/-- **Bytes that come with `io.EOF` are lost**: there are two chunks with three bytes, and every
read returns `io.EOF`. -/
theorem eager_chunks_lost : contents eagerChunks = [1, 2, 3] ∧
    (∀ i, answers (fun _ => 4) (newChunkReader eagerChunks) i = ([], some .eof)) ∧
    ¬ Delivered (fun _ => 4) (newChunkReader eagerChunks) (contents eagerChunks) := by
  have hall : ∀ i, answers (fun _ => 4) (newChunkReader eagerChunks) i = ([], some .eof) := by
    intro i
    cases i with
    | zero => rfl
    | succ i => exact answers_of_nil rfl (fun _ => 4) i
  refine ⟨rfl, hall, ?_⟩
  rintro ⟨k, hsome, hdata, -⟩
  cases k with
  | zero => cases hdata
  | succ k =>
    have hfirst := hsome 0 (Nat.succ_pos k)
    rw [hall 0] at hfirst
    cases hfirst

end MelodiaStore
