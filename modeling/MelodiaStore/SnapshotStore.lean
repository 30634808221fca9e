import MelodiaStore.ChunkStream
import MelodiaStore.FileSystem
import MelodiaStore.Ordered
import MelodiaStore.Words

/-!
# The Snapshot Store

`Store` of `snapshots/store.go`. The metadata of a snapshot is in a database, under a key made of
its height and format; each of its chunks is a file, under a path made of the height, the format
and the number of the chunk.

Protobuf is lossless, so the database holds the metadata itself. The database and the file system
can fail, which is an input here: `SaveFaults` says which of the calls that `Save` makes fail, and
a chunk is a reader whose `ending` may be an error. `sha256` is any function.

## Main results

* `SnapshotStore.failedSave_leaves`: a `Save` that fails leaves the files that it wrote, and nothing
  else; `LoadChunk` serves them.
-/

namespace MelodiaStore

/-! ### Keys and paths -/

variable {height : UInt64} {format : UInt32} {height' : UInt64} {format' : UInt32}

/-- `types.Snapshot`; the metadata of a snapshot are the hashes of its chunks. -/
structure Snapshot where
  height : UInt64
  format : UInt32
  chunks : UInt32
  hash : Bytes
  chunkHashes : List Bytes
  deriving DecidableEq

/-- The errors of the snapshot store. -/
inductive SnapshotStoreError
  /-- `ErrLogic`: snapshot directory not given -/
  | noDirectory
  /-- `ErrLogic`: snapshot height cannot be 0 -/
  | heightZero
  /-- `ErrConflict`: a snapshot for the height is already being saved -/
  | alreadySaving (height : UInt64)
  /-- `ErrConflict`: snapshot is currently being saved -/
  | saving (height : UInt64) (format : UInt32)
  /-- `ErrConflict`: snapshot already exists -/
  | alreadyExists (height : UInt64) (format : UInt32)
  /-- an error of the database, from `Has` -/
  | has
  /-- failed to create snapshot directory -/
  | directory (dir : Path)
  /-- failed to create snapshot chunk file -/
  | createFile (path : Path)
  /-- failed to generate snapshot chunk -/
  | generate (index : UInt32)
  /-- failed to close snapshot chunk file -/
  | closeFile (index : UInt32)
  /-- failed to close snapshot chunk body -/
  | closeBody (index : UInt32)
  /-- failed to encode snapshot metadata -/
  | encode
  /-- failed to store snapshot -/
  | store
  /-- `ErrLogic`: invalid snapshot key with length -/
  | keyLength (length : ℕ)
  /-- `ErrLogic`: invalid snapshot key prefix -/
  | keyPrefix (b : UInt8)
  /-- failed to remove snapshot directory for height -/
  | removeDirectory (height : UInt64)
  deriving DecidableEq

/-- The refusals of `Save` and `Delete` while a snapshot of the height is being saved. -/
def SnapshotStoreError.InProgress : SnapshotStoreError → Prop
  | .alreadySaving _ => True
  | .saving _ _ => True
  | _ => False

/-- `keyPrefixSnapshot`. -/
def keyPrefixSnapshot : UInt8 := 0x01

/-- `encodeKey`. -/
def encodeKey (height : UInt64) (format : UInt32) : Bytes :=
  keyPrefixSnapshot :: bigEndian 8 height.toNat ++ bigEndian 4 format.toNat

/-- `decodeKey`. -/
def decodeKey (k : Bytes) : Except SnapshotStoreError (UInt64 × UInt32) :=
  if k.length ≠ 13 then .error (.keyLength k.length)
  else if k.headD 0 ≠ keyPrefixSnapshot then .error (.keyPrefix (k.headD 0))
  else .ok (UInt64.ofNat (ofBigEndian ((k.drop 1).take 8)), UInt32.ofNat (ofBigEndian (k.drop 9)))

/-- Keys tell snapshots apart. -/
theorem encodeKey_inj (h : encodeKey height format = encodeKey height' format') :
    height = height' ∧ format = format' := by
  have hparts := List.append_inj (List.cons.inj h).2 (by rw [length_bigEndian, length_bigEndian])
  exact ⟨UInt64.toNat_inj.mp (bigEndian_injective height.toNat_lt height'.toNat_lt hparts.1),
    UInt32.toNat_inj.mp (bigEndian_injective format.toNat_lt format'.toNat_lt hparts.2)⟩

/-- Decoding gives back what was encoded. -/
theorem decodeKey_encodeKey (height : UInt64) (format : UInt32) :
    decodeKey (encodeKey height format) = .ok (height, format) := by
  have hlength : (encodeKey height format).length = 13 := by
    simp [encodeKey]
  have hheight : ((encodeKey height format).drop 1).take 8 = bigEndian 8 height.toNat :=
    List.take_left' (length_bigEndian 8 _)
  have hformat : (encodeKey height format).drop 9 = bigEndian 4 format.toNat :=
    List.drop_left' (congrArg (· + 1) (length_bigEndian 8 _))
  rw [decodeKey, if_neg (not_not.mpr hlength), hheight, hformat,
    ofBigEndian_bigEndian_of_lt height.toNat_lt, ofBigEndian_bigEndian_of_lt format.toNat_lt,
    UInt64.ofNat_toNat, UInt32.ofNat_toNat]
  rfl

/-- The keys that `decodeKey` accepts are those `encodeKey` makes. -/
theorem eq_encodeKey_of_decodeKey {k : Bytes} (h : decodeKey k = .ok (height, format)) :
    k = encodeKey height format := by
  rw [decodeKey] at h
  split_ifs at h with hlength hfirst
  obtain ⟨b, k, rfl⟩ := List.exists_cons_of_length_eq_add_one (not_not.mp hlength)
  obtain ⟨rfl, rfl⟩ := Prod.mk.inj (Except.ok.inj h)
  obtain rfl : b = keyPrefixSnapshot := not_not.mp hfirst
  have hk : k.length = 12 := Nat.succ.inj (not_not.mp hlength)
  have hheight : (k.take 8).length = 8 := by
    rw [List.length_take, hk]
    rfl
  have hformat : (k.drop 8).length = 4 := by rw [List.length_drop, hk]
  have hle := ofBigEndian_lt (k.take 8)
  have hlf := ofBigEndian_lt (k.drop 8)
  rw [hheight] at hle
  rw [hformat] at hlf
  rw [encodeKey, List.drop_succ_cons, List.drop_zero, List.drop_succ_cons,
    UInt64.toNat_ofNat_of_lt' hle, UInt32.toNat_ofNat_of_lt' hlf, bigEndian_ofBigEndian hheight,
    bigEndian_ofBigEndian hformat, List.cons_append, List.take_append_drop]

/-- A lower height, or the height and a lower format, makes a lower key. -/
theorem encodeKey_lt_of_lt (h : height < height' ∨ height = height' ∧ format < format') :
    encodeKey height format < encodeKey height' format' := by
  have hword : ∀ h : UInt64, h.toNat % 256 ^ 8 = h.toNat := fun h => Nat.mod_eq_of_lt h.toNat_lt
  have hhalf : ∀ f : UInt32, f.toNat % 256 ^ 4 = f.toNat := fun f => Nat.mod_eq_of_lt f.toNat_lt
  refine List.cons_lt_cons_iff.mpr (.inr ⟨rfl, ?_⟩)
  rcases h with hheight | ⟨rfl, hformat⟩
  · apply bigEndian_append_lt
    rw [hword, hword]
    exact UInt64.lt_iff_toNat_lt.mp hheight
  · have hmod : format.toNat % 256 ^ 4 < format'.toNat % 256 ^ 4 := by
      rw [hhalf, hhalf]
      exact UInt32.lt_iff_toNat_lt.mp hformat
    have hlt := bigEndian_append_lt hmod [] []
    rw [List.append_nil, List.append_nil] at hlt
    exact append_lt_append_iff.mpr hlt

/-- **Keys are ordered as heights and formats**, the height first. -/
theorem encodeKey_lt_iff :
    encodeKey height format < encodeKey height' format' ↔
      height < height' ∨ height = height' ∧ format < format' := by
  refine ⟨fun h => ?_, encodeKey_lt_of_lt⟩
  rcases Nat.lt_trichotomy height.toNat height'.toNat with hlt | heq | hgt
  · exact .inl (UInt64.lt_iff_toNat_lt.mpr hlt)
  · obtain rfl := UInt64.toNat_inj.mp heq
    rcases Nat.lt_trichotomy format.toNat format'.toNat with hlt | heq | hgt
    · exact .inr ⟨rfl, UInt32.lt_iff_toNat_lt.mpr hlt⟩
    · obtain rfl := UInt32.toNat_inj.mp heq
      exact absurd h (lt_irrefl _)
    · have hbelow := UInt32.lt_iff_toNat_lt.mpr hgt
      exact absurd h (lt_asymm (encodeKey_lt_of_lt (.inr ⟨rfl, hbelow⟩)))
  · have hbelow := UInt64.lt_iff_toNat_lt.mpr hgt
    exact absurd h (lt_asymm (encodeKey_lt_of_lt (.inl hbelow)))

/-- `Store.pathHeight`. -/
def pathHeight (dir : Path) (height : UInt64) : Path := join dir (decimal height.toNat)

/-- `Store.pathSnapshot`. -/
def pathSnapshot (dir : Path) (height : UInt64) (format : UInt32) : Path :=
  join (pathHeight dir height) (decimal format.toNat)

/-- `Store.PathChunk`. -/
def pathChunk (dir : Path) (height : UInt64) (format chunk : UInt32) : Path :=
  join (pathSnapshot dir height format) (decimal chunk.toNat)

/-- The path of a chunk. -/
theorem pathChunk_eq (dir : Path) (height : UInt64) (format chunk : UInt32) :
    pathChunk dir height format chunk = dir ++ '/' :: (decimal height.toNat ++
      '/' :: (decimal format.toNat ++ '/' :: decimal chunk.toNat)) := by
  simp [pathChunk, pathSnapshot, pathHeight, join]

/-- The path of a snapshot. -/
theorem pathSnapshot_eq (dir : Path) (height : UInt64) (format : UInt32) :
    pathSnapshot dir height format = dir ++ '/' :: (decimal height.toNat ++
      '/' :: decimal format.toNat) := by
  simp [pathSnapshot, pathHeight, join]

section Paths

variable {dir : Path} {height height' : UInt64} {format format' chunk chunk' : UInt32}

/-- The height and the format at the front of a path. -/
theorem names_inj {x y : List Char}
    (h : decimal height.toNat ++ '/' :: (decimal format.toNat ++ '/' :: x) =
      decimal height'.toNat ++ '/' :: (decimal format'.toNat ++ '/' :: y)) :
    height = height' ∧ format = format' ∧ x = y := by
  obtain ⟨hheight, hrest⟩ :=
    append_slash_inj (slash_notMem_decimal _) (slash_notMem_decimal _) h
  obtain ⟨hformat, hxy⟩ :=
    append_slash_inj (slash_notMem_decimal _) (slash_notMem_decimal _) hrest
  exact ⟨UInt64.toNat_inj.mp (decimal_injective hheight),
    UInt32.toNat_inj.mp (decimal_injective hformat), hxy⟩

/-- Paths tell chunks apart. -/
theorem pathChunk_inj (h : pathChunk dir height format chunk =
    pathChunk dir height' format' chunk') :
    height = height' ∧ format = format' ∧ chunk = chunk' := by
  rw [pathChunk_eq, pathChunk_eq] at h
  obtain ⟨hheight, hformat, hchunk⟩ := names_inj (List.cons.inj (List.append_cancel_left h)).2
  exact ⟨hheight, hformat, UInt32.toNat_inj.mp (decimal_injective hchunk)⟩

/-- The directory of a snapshot has the chunks of that snapshot, and no others. -/
theorem isUnder_pathSnapshot_iff :
    IsUnder (pathSnapshot dir height format) (pathChunk dir height' format' chunk) ↔
      height = height' ∧ format = format' := by
  constructor
  · rintro (h | ⟨t, h⟩)
    · -- the directory is no chunk: its last name has no separator
      rw [pathChunk_eq, pathSnapshot_eq] at h
      obtain ⟨-, hrest⟩ := append_slash_inj (slash_notMem_decimal _) (slash_notMem_decimal _)
        (List.cons.inj (List.append_cancel_left h)).2
      have hmem : '/' ∈ decimal format.toNat := by
        rw [← hrest]
        exact List.mem_append_right _ List.mem_cons_self
      exact absurd hmem (slash_notMem_decimal _)
    · rw [pathChunk_eq, pathSnapshot_eq] at h
      simp only [List.append_assoc, List.cons_append, List.nil_append] at h
      obtain ⟨hheight, hformat, -⟩ := names_inj (List.cons.inj (List.append_cancel_left h)).2
      exact ⟨hheight, hformat⟩
  · rintro ⟨rfl, rfl⟩
    refine .inr ⟨decimal chunk.toNat, ?_⟩
    rw [List.append_assoc]
    rfl

end Paths

/-! ### The store -/

/-- `snapshots.Store`, with the file system that has its directory. -/
structure SnapshotStore where
  db : GoMap Bytes Snapshot
  dir : Path
  saving : GoMap UInt64 Bool
  fs : FileSystem Bytes

/-- A chunk that `Save` receives: its reader, and which of the calls that are made for it fail.
`room` is the number of bytes that its file takes before a write to it fails. -/
structure ChunkBody where
  reader : Pipe
  createFails : Bool := false
  room : Option ℕ := none
  closeFileFails : Bool := false
  closeBodyFails : Bool := false

/-- Which of the other calls of `Save` fail. -/
structure SaveFaults where
  hasFails : Bool := false
  mkdirAllFails : Bool := false
  marshalFails : Bool := false
  setSyncFails : Bool := false

/-- The metadata cannot be saved. -/
def SaveFaults.metadataFails (faults : SaveFaults) : Bool :=
  faults.marshalFails || faults.setSyncFails

namespace ChunkBody

/-- What `io.Copy` has written to the file when it returns. -/
def copied (body : ChunkBody) : Bytes :=
  match body.room with
  | none => body.reader.content
  | some n => body.reader.content.take n

/-- `io.Copy` returns an error: of the reader, or of the file. -/
def copyFails (body : ChunkBody) : Bool :=
  decide (body.copied ≠ body.reader.content) || decide (body.reader.ending ≠ .eof)

end ChunkBody

namespace SnapshotStore

/-- `snapshots.NewStore`. -/
def newStore (db : GoMap Bytes Snapshot) (fs : FileSystem Bytes) (dir : Path) :
    Except SnapshotStoreError SnapshotStore :=
  if dir = [] then .error .noDirectory
  else .ok { db, dir, saving := ∅, fs := fs.mkdirAll dir }

/-- The lookup `s.saving[height]`. -/
def isSaving (s : SnapshotStore) (height : UInt64) : Bool := (s.saving.lookup height).getD false

/-- `Store.Get`. -/
def get (s : SnapshotStore) (height : UInt64) (format : UInt32) : Option Snapshot :=
  s.db.lookup (encodeKey height format)

/-- What the reverse iterator of `GetLatest`, `List` and `Prune` meets. -/
def newestFirst (s : SnapshotStore) : List (Bytes × Snapshot) :=
  traverse s.db (isKeyInDomain · (some (encodeKey 0 0))
    (some (encodeKey (UInt64.ofNat (2 ^ 64 - 1)) (UInt32.ofNat (2 ^ 32 - 1))))) false

/-- `Store.GetLatest`. -/
def getLatest (s : SnapshotStore) : Option Snapshot := s.newestFirst.head?.map Prod.snd

/-- `Store.List`. -/
def list (s : SnapshotStore) : List Snapshot := s.newestFirst.map Prod.snd

/-- `Store.LoadChunk`: what is in the file, or `none` if it does not exist. -/
def loadChunk (s : SnapshotStore) (height : UInt64) (format chunk : UInt32) : Option Bytes :=
  s.fs.readFile (pathChunk s.dir height format chunk)

/-- The loop of the goroutine of `Store.Load`. The pipe of a chunk that has no file is closed with
an error, and is the last one; an empty file is copied without a write. -/
def loadChunks (s : SnapshotStore) (height : UInt64) (format : UInt32) : List UInt32 → List Pipe
  | [] => []
  | chunk :: chunks =>
    match s.loadChunk height format chunk with
    | none => [⟨[], .other "no such file or directory"⟩]
    | some data => ⟨[data].filter (· ≠ []), .eof⟩ :: loadChunks s height format chunks

/-- `Store.Load`; the pipes are those that come out of the channel. -/
def load (s : SnapshotStore) (height : UInt64) (format : UInt32) : Option (Snapshot × List Pipe) :=
  (s.get height format).map fun snapshot =>
    (snapshot, s.loadChunks height format ((List.range snapshot.chunks.toNat).map UInt32.ofNat))

/-- `Store.Delete`. -/
def delete (height : UInt64) (format : UInt32) : EStateM SnapshotStoreError SnapshotStore Unit := do
  let s ← MonadState.get
  if s.isSaving height then
    throw (.saving height format)
  set { s with
    db := s.db.erase (encodeKey height format)
    fs := s.fs.removeAll (pathSnapshot s.dir height format) }

/-- The loop of `Store.Prune` over the keys that its iterator meets; `skip` are the heights that
are retained. It returns the heights that were deleted, and how many snapshots. -/
def pruneLoop (retain : UInt32) : List Bytes → GoMap UInt64 Bool → GoMap UInt64 Bool → UInt64 →
    EStateM SnapshotStoreError SnapshotStore (GoMap UInt64 Bool × UInt64)
  | [], _, prunedHeights, pruned => return (prunedHeights, pruned)
  | key :: keys, skip, prunedHeights, pruned =>
    match decodeKey key with
    | .error e => throw e
    | .ok (height, format) =>
      if (skip.lookup height).getD false ∨ UInt32.ofNat skip.keys.length < retain then
        pruneLoop retain keys (skip.insert height true) prunedHeights pruned
      else do
        delete height format
        pruneLoop retain keys skip (prunedHeights.insert height true) (pruned + 1)

/-- The loop of `Store.Prune` over the heights that were deleted. -/
def removeHeights : List UInt64 → EStateM SnapshotStoreError SnapshotStore Unit
  | [] => return
  | height :: heights => do
    let s ← MonadState.get
    match s.fs.removeDir (pathHeight s.dir height) with
    | none => throw (.removeDirectory height)
    | some fs =>
      set { s with fs }
      removeHeights heights

/-- `Store.Prune`, with the heights that were deleted in the order of a `range` over their map. -/
def prune (order : Traversal UInt64 Bool) (retain : UInt32) :
    EStateM SnapshotStoreError SnapshotStore UInt64 := do
  let s ← MonadState.get
  let (prunedHeights, pruned) ← pruneLoop retain (s.newestFirst.map Prod.fst) ∅ ∅ 0
  removeHeights ((order.visit prunedHeights).map Sigma.fst)
  return pruned

section Save

variable (sha256 : Bytes → Bytes)

/-- `Store.saveChunk`; `hashed` is what the hasher of the snapshot has seen. -/
def saveChunk (body : ChunkBody) (index : UInt32) (snapshot : Snapshot) (hashed : Bytes) :
    EStateM SnapshotStoreError SnapshotStore (Snapshot × Bytes) := do
  let s ← MonadState.get
  let path := pathChunk s.dir snapshot.height snapshot.format index
  if body.createFails then
    throw (.createFile path)
  set { s with fs := s.fs.writeFile path body.copied }
  if body.copyFails then
    throw (.generate index)
  if body.closeFileFails then
    throw (.closeFile index)
  if body.closeBodyFails then
    throw (.closeBody index)
  return ({ snapshot with chunkHashes := snapshot.chunkHashes ++ [sha256 body.reader.content] },
    hashed ++ body.reader.content)

/-- `Store.saveSnapshot`. -/
def saveSnapshot (faults : SaveFaults) (snapshot : Snapshot) :
    EStateM SnapshotStoreError SnapshotStore Unit := do
  if faults.marshalFails then
    throw .encode
  if faults.setSyncFails then
    throw .store
  modify fun s =>
    { s with db := s.db.insert (encodeKey snapshot.height snapshot.format) snapshot }

/-- The directory of a snapshot is made when its first chunk comes. -/
def createDir (faults : SaveFaults) (height : UInt64) (format : UInt32) (dirCreated : Bool) :
    EStateM SnapshotStoreError SnapshotStore Unit := do
  if dirCreated then
    return
  let s ← MonadState.get
  let dir := pathSnapshot s.dir height format
  if faults.mkdirAllFails then
    throw (.directory dir)
  set { s with fs := s.fs.mkdirAll dir }

/-- The loop of `Store.Save` over the chunks. -/
def saveChunks (faults : SaveFaults) : List ChunkBody → Bool → UInt32 → Snapshot → Bytes →
    EStateM SnapshotStoreError SnapshotStore (UInt32 × Snapshot × Bytes)
  | [], _, index, snapshot, hashed => return (index, snapshot, hashed)
  | body :: chunks, dirCreated, index, snapshot, hashed => do
    createDir faults snapshot.height snapshot.format dirCreated
    let (snapshot, hashed) ← saveChunk sha256 body index snapshot hashed
    saveChunks faults chunks true (index + 1) snapshot hashed

/-- `Store.Save` behind the check that no other one is under way. -/
def saveLocked (faults : SaveFaults) (height : UInt64) (format : UInt32)
    (chunks : List ChunkBody) : EStateM SnapshotStoreError SnapshotStore Snapshot := do
  if faults.hasFails then
    throw .has
  let s ← MonadState.get
  if (s.get height format).isSome then
    throw (.alreadyExists height format)
  let (index, snapshot, hashed) ← saveChunks sha256 faults chunks false 0
    { height, format, chunks := 0, hash := [], chunkHashes := [] } []
  let snapshot := { snapshot with chunks := index, hash := sha256 hashed }
  saveSnapshot faults snapshot
  return snapshot

/-- `Store.Save`. -/
def save (faults : SaveFaults) (height : UInt64) (format : UInt32) (chunks : List ChunkBody) :
    EStateM SnapshotStoreError SnapshotStore Snapshot := do
  if height = 0 then
    throw .heightZero
  let s ← MonadState.get
  set { s with saving := s.saving.insert height true }
  if s.isSaving height then
    throw (.alreadySaving height)
  deferring (fun s => { s with saving := s.saving.erase height })
    (saveLocked sha256 faults height format chunks)

end Save

/-! ### What a Save writes -/

/-- The store after a chunk was written. -/
def writeChunk (s : SnapshotStore) (height : UInt64) (format index : UInt32) (data : Bytes) :
    SnapshotStore :=
  { s with fs := s.fs.writeFile (pathChunk s.dir height format index) data }

/-- A written chunk is loaded, and no other one is touched. -/
theorem loadChunk_writeChunk (s : SnapshotStore) (height height' : UInt64)
    (format format' index chunk : UInt32) (data : Bytes) :
    (s.writeChunk height format index data).loadChunk height' format' chunk =
      if height' = height ∧ format' = format ∧ chunk = index then some data
      else s.loadChunk height' format' chunk := by
  rw [loadChunk, writeChunk, FileSystem.writeFile, FileSystem.readFile, lookup_insert_ite]
  refine if_congr ⟨fun h => pathChunk_inj h, ?_⟩ rfl rfl
  rintro ⟨rfl, rfl, rfl⟩
  rfl

end SnapshotStore

/-- The answer of `saveChunk` once the file is there. -/
def ChunkBody.saved (sha256 : Bytes → Bytes) (body : ChunkBody) (index : UInt32)
    (snapshot : Snapshot) (hashed : Bytes) : Except SnapshotStoreError (Snapshot × Bytes) :=
  if body.copyFails then .error (.generate index)
  else if body.closeFileFails then .error (.closeFile index)
  else if body.closeBodyFails then .error (.closeBody index)
  else .ok ({ snapshot with
    chunkHashes := snapshot.chunkHashes ++ [sha256 body.reader.content] },
    hashed ++ body.reader.content)

/-- The chunk fails once the file is there. -/
def ChunkBody.fails (body : ChunkBody) : Bool :=
  body.copyFails || body.closeFileFails || body.closeBodyFails

section

variable {sha256 : Bytes → Bytes} {body : ChunkBody} {index : UInt32} {snapshot : Snapshot}
  {hashed : Bytes}

theorem ChunkBody.saved_of_fails (h : body.fails = true) :
    ∃ e, body.saved sha256 index snapshot hashed = .error e ∧ ¬e.InProgress := by
  unfold saved
  by_cases hcopy : body.copyFails
  · exact ⟨_, if_pos hcopy, id⟩
  rw [if_neg hcopy]
  by_cases hfile : body.closeFileFails
  · exact ⟨_, if_pos hfile, id⟩
  rw [if_neg hfile]
  by_cases hbody : body.closeBodyFails
  · exact ⟨_, if_pos hbody, id⟩
  simp [fails, hcopy, hfile, hbody] at h

theorem ChunkBody.saved_of_not_fails (h : body.fails = false) :
    body.saved sha256 index snapshot hashed = .ok ({ snapshot with
      chunkHashes := snapshot.chunkHashes ++ [sha256 body.reader.content] },
      hashed ++ body.reader.content) := by
  rw [fails, Bool.or_eq_false_iff, Bool.or_eq_false_iff] at h
  simp only [saved, h, Bool.false_eq_true, if_false]

/-- A chunk that does not fail was read to its end, and copied as a whole. -/
theorem ChunkBody.copied_of_not_fails (h : body.fails = false) :
    body.copied = body.reader.content := by
  rw [fails, copyFails, Bool.or_eq_false_iff, Bool.or_eq_false_iff, Bool.or_eq_false_iff] at h
  exact not_not.mp (of_decide_eq_false h.1.1.1)

end

namespace SnapshotStore

variable {sha256 : Bytes → Bytes} {body : ChunkBody} {index : UInt32} {snapshot : Snapshot}
  {hashed : Bytes}

/-- A file that cannot be made. -/
theorem outcome_saveChunk_of_create (h : body.createFails = true) (s : SnapshotStore) :
    outcome (saveChunk sha256 body index snapshot hashed) s =
      (.error (.createFile (pathChunk s.dir snapshot.height snapshot.format index)), s) := by
  rw [outcome, saveChunk, EStateM.run_bind, EStateM.run_get]
  dsimp only
  rw [if_pos h]
  rfl

/-- A chunk is written, also if its reader fails. -/
theorem outcome_saveChunk (h : body.createFails = false) (s : SnapshotStore) :
    outcome (saveChunk sha256 body index snapshot hashed) s =
      (body.saved sha256 index snapshot hashed,
        s.writeChunk snapshot.height snapshot.format index body.copied) := by
  rw [outcome, saveChunk, EStateM.run_bind, EStateM.run_get]
  dsimp only
  rw [if_neg (by rw [h]; exact Bool.false_ne_true), EStateM.run_bind, ChunkBody.saved]
  dsimp only [EStateM.run_set]
  split_ifs <;> rfl

/-- The files that the loop over the chunks writes, the first one under number `index`: up to the
first chunk that fails, which has left what was copied of it. -/
def filesWritten : List ChunkBody → UInt32 → List (UInt32 × Bytes)
  | [], _ => []
  | body :: chunks, index =>
    if body.createFails then []
    else if body.fails then [(index, body.copied)]
    else (index, body.copied) :: filesWritten chunks (index + 1)

/-- All that a computation changed is that it wrote these files, one after the other, for the
chunks of one snapshot. -/
structure Wrote (height : UInt64) (format : UInt32) (files : List (UInt32 × Bytes))
    (s s' : SnapshotStore) : Prop where
  db_eq : s'.db = s.db
  dir_eq : s'.dir = s.dir
  saving_eq : s'.saving = s.saving
  loadChunk_eq : ∀ h f c, s'.loadChunk h f c =
    if h = height ∧ f = format then (files.reverse.lookup c).or (s.loadChunk h f c)
    else s.loadChunk h f c

namespace Wrote

variable {height : UInt64} {format : UInt32} {files files' : List (UInt32 × Bytes)}
  {s s' s'' : SnapshotStore}

theorem nil (height : UInt64) (format : UInt32) (s : SnapshotStore) : Wrote height format [] s s :=
  ⟨rfl, rfl, rfl, fun _ _ _ => (ite_self _).symm⟩

/-- Making a directory writes no file. -/
theorem mkdirAll (height : UInt64) (format : UInt32) (s : SnapshotStore) (path : Path) :
    Wrote height format [] s { s with fs := s.fs.mkdirAll path } :=
  ⟨rfl, rfl, rfl, fun _ _ _ => (ite_self _).symm⟩

theorem single (height : UInt64) (format index : UInt32) (data : Bytes) (s : SnapshotStore) :
    Wrote height format [(index, data)] s (s.writeChunk height format index data) where
  db_eq := rfl
  dir_eq := rfl
  saving_eq := rfl
  loadChunk_eq h f c := by
    rw [loadChunk_writeChunk]
    by_cases hhf : h = height ∧ f = format
    · rw [if_pos hhf]
      by_cases hc : c = index
      · rw [if_pos ⟨hhf.1, hhf.2, hc⟩, hc]
        simp
      · rw [if_neg (fun h => hc h.2.2), List.reverse_singleton, List.lookup_cons,
          beq_false_of_ne hc]
        rfl
    · rw [if_neg hhf, if_neg (fun h => hhf ⟨h.1, h.2.1⟩)]

/-- What was written last counts. -/
theorem append (h : Wrote height format files s s') (h' : Wrote height format files' s' s'') :
    Wrote height format (files ++ files') s s'' where
  db_eq := h'.db_eq.trans h.db_eq
  dir_eq := h'.dir_eq.trans h.dir_eq
  saving_eq := h'.saving_eq.trans h.saving_eq
  loadChunk_eq hgt f c := by
    rw [h'.loadChunk_eq, h.loadChunk_eq]
    split_ifs with hhf
    · rw [List.reverse_append, List.lookup_append, Option.or_assoc]
    · rfl

end Wrote

variable {faults : SaveFaults} {chunks : List ChunkBody} {s s' : SnapshotStore} {height : UInt64}
  {dirCreated : Bool} {e : SnapshotStoreError}

/-- The directory is there, or can be made. -/
theorem outcome_createDir (h : dirCreated = true ∨ faults.mkdirAllFails = false) (height : UInt64)
    (format : UInt32) (s : SnapshotStore) :
    ∃ s', outcome (createDir faults height format dirCreated) s = (.ok (), s') ∧
      Wrote height format [] s s' := by
  unfold createDir
  cases dirCreated with
  | true => exact ⟨s, rfl, .nil height format s⟩
  | false =>
    rw [h.resolve_left Bool.false_ne_true]
    exact ⟨_, rfl, .mkdirAll height format s _⟩

/-- What is known of the snapshot after one more chunk. -/
def withChunk (sha256 : Bytes → Bytes) (snapshot : Snapshot) (data : Bytes) : Snapshot :=
  { snapshot with chunkHashes := snapshot.chunkHashes ++ [sha256 data] }

/-- One round of the loop: it ends the loop with an error, having written what it could, or it
writes the chunk and goes on. -/
theorem saveChunks_cons (sha256 : Bytes → Bytes) (faults : SaveFaults) (body : ChunkBody)
    (chunks : List ChunkBody) (dirCreated : Bool) (index : UInt32) (snapshot : Snapshot)
    (hashed : Bytes) (s : SnapshotStore) :
    (∃ e s', outcome (saveChunks sha256 faults (body :: chunks) dirCreated index snapshot hashed) s
        = (.error e, s') ∧ ¬e.InProgress ∧
        ¬((dirCreated = true ∨ faults.mkdirAllFails = false) ∧ body.createFails = false ∧
          body.fails = false) ∧
        Wrote snapshot.height snapshot.format (if dirCreated = true ∨ faults.mkdirAllFails = false
          then filesWritten (body :: chunks) index else []) s s') ∨
      (dirCreated = true ∨ faults.mkdirAllFails = false) ∧ body.createFails = false ∧
        body.fails = false ∧
        ∃ s', Wrote snapshot.height snapshot.format [(index, body.copied)] s s' ∧
          outcome (saveChunks sha256 faults (body :: chunks) dirCreated index snapshot hashed) s =
            outcome (saveChunks sha256 faults chunks true (index + 1)
              (withChunk sha256 snapshot body.reader.content)
              (hashed ++ body.reader.content)) s' := by
  rw [saveChunks]
  by_cases hdir : dirCreated = true ∨ faults.mkdirAllFails = false
  · obtain ⟨s₁, hcreated, hwrote₁⟩ := outcome_createDir hdir snapshot.height snapshot.format s
    have hwrote₂ := hwrote₁.append
      (Wrote.single snapshot.height snapshot.format index body.copied s₁)
    rw [outcome_bind_ok hcreated, if_pos hdir, filesWritten]
    cases hcreate : body.createFails with
    | true =>
      exact .inl ⟨_, s₁, outcome_bind_error (outcome_saveChunk_of_create hcreate s₁), id,
        fun h => Bool.noConfusion h.2.1, hwrote₁⟩
    | false =>
      have hsave : outcome (saveChunk sha256 body index snapshot hashed) s₁ = _ :=
        outcome_saveChunk hcreate s₁
      cases hfails : body.fails with
      | true =>
        obtain ⟨e, he, hprogress⟩ := ChunkBody.saved_of_fails hfails
        rw [he] at hsave
        exact .inl ⟨e, _, outcome_bind_error hsave, hprogress,
          fun h => Bool.noConfusion h.2.2, hwrote₂⟩
      | false =>
        rw [ChunkBody.saved_of_not_fails hfails] at hsave
        exact .inr ⟨hdir, rfl, rfl, _, hwrote₂, outcome_bind_ok hsave⟩
  · rw [if_neg hdir]
    have hfails := not_or.mp hdir
    rw [Bool.not_eq_true, Bool.not_eq_false] at hfails
    rw [hfails.1] at hdir ⊢
    have hcreated : outcome (createDir faults snapshot.height snapshot.format false) s =
        (.error (.directory (pathSnapshot s.dir snapshot.height snapshot.format)), s) := by
      unfold createDir
      rw [hfails.2]
      rfl
    exact .inl ⟨_, s, outcome_bind_error hcreated, id, fun h => hdir h.1, .nil _ _ s⟩

/-- **The loop writes the files of the chunks**, up to the first chunk that fails. -/
theorem wrote_saveChunks (sha256 : Bytes → Bytes) (faults : SaveFaults) (chunks : List ChunkBody)
    (dirCreated : Bool) (index : UInt32) (snapshot : Snapshot) (hashed : Bytes)
    (s : SnapshotStore) :
    Wrote snapshot.height snapshot.format
      (if dirCreated = true ∨ faults.mkdirAllFails = false then filesWritten chunks index else [])
      s (outcome (saveChunks sha256 faults chunks dirCreated index snapshot hashed) s).2 := by
  induction chunks generalizing dirCreated index snapshot hashed s with
  | nil =>
    rw [filesWritten, ite_self]
    exact .nil _ _ s
  | cons body chunks ih =>
    rcases saveChunks_cons sha256 faults body chunks dirCreated index snapshot hashed s with
      ⟨e, s', heq, -, -, hwrote⟩ | ⟨hdir, hcreate, hfails, s', hwrote, heq⟩
    · rw [heq]
      exact hwrote
    · rw [heq, if_pos hdir, filesWritten, hcreate, hfails]
      exact hwrote.append
        (ih true (index + 1) (withChunk sha256 snapshot body.reader.content) _ s')

/-- The loop is never refused. -/
theorem not_inProgress_of_saveChunks
    (h : outcome (saveChunks sha256 faults chunks dirCreated index snapshot hashed) s =
      (.error e, s')) : ¬e.InProgress := by
  induction chunks generalizing dirCreated index snapshot hashed s with
  | nil => cases h
  | cons body chunks ih =>
    rcases saveChunks_cons sha256 faults body chunks dirCreated index snapshot hashed s with
      ⟨e', s₁, heq, hprogress, -, -⟩ | ⟨-, -, -, s₁, -, heq⟩
    · rw [heq] at h
      cases h
      exact hprogress
    · rw [heq] at h
      exact ih h

/-! ### A Save that fails -/

variable {format : UInt32}

/-- The files that a call of `Save` writes: none if it does not get to its chunks. -/
def filesOfSave (s : SnapshotStore) (faults : SaveFaults) (height : UInt64) (format : UInt32)
    (chunks : List ChunkBody) : List (UInt32 × Bytes) :=
  if height = 0 ∨ s.isSaving height = true ∨ faults.hasFails = true ∨
      (s.get height format).isSome = true ∨ faults.mkdirAllFails = true then []
  else filesWritten chunks 0

/-- The metadata cannot be written. -/
theorem outcome_saveSnapshot_of_fails (h : faults.metadataFails = true) (snapshot : Snapshot)
    (s : SnapshotStore) :
    ∃ e, outcome (saveSnapshot faults snapshot) s = (.error e, s) ∧ ¬e.InProgress := by
  unfold saveSnapshot
  cases hmarshal : faults.marshalFails with
  | true => exact ⟨.encode, rfl, id⟩
  | false =>
    have hset : faults.setSyncFails = true := by
      rwa [SaveFaults.metadataFails, hmarshal] at h
    rw [hset]
    exact ⟨.store, rfl, id⟩

/-- The metadata is written. -/
theorem outcome_saveSnapshot (h : faults.metadataFails = false) (snapshot : Snapshot)
    (s : SnapshotStore) :
    outcome (saveSnapshot faults snapshot) s = (.ok (), { s with
      db := s.db.insert (encodeKey snapshot.height snapshot.format) snapshot }) := by
  rw [SaveFaults.metadataFails, Bool.or_eq_false_iff] at h
  rw [saveSnapshot, h.1, h.2]
  rfl

/-- Behind the check that no other one is under way: a `Save` that fails has written files and
nothing else; one that succeeds has written the files of its chunks, and then the metadata. -/
theorem saveLocked_cases (sha256 : Bytes → Bytes) (faults : SaveFaults) (height : UInt64)
    (format : UInt32) (chunks : List ChunkBody) (s : SnapshotStore) :
    (∃ e s', outcome (saveLocked sha256 faults height format chunks) s = (.error e, s') ∧
      ¬e.InProgress ∧ Wrote height format
        (if faults.hasFails = true ∨ (s.get height format).isSome = true ∨
          faults.mkdirAllFails = true then [] else filesWritten chunks 0) s s') ∨
    ∃ index snapshot hashed s', outcome (saveChunks sha256 faults chunks false 0
        ⟨height, format, 0, [], []⟩ []) s = (.ok (index, snapshot, hashed), s') ∧
      outcome (saveLocked sha256 faults height format chunks) s =
        (.ok { snapshot with chunks := index, hash := sha256 hashed }, { s' with
          db := s'.db.insert (encodeKey snapshot.height snapshot.format)
            { snapshot with chunks := index, hash := sha256 hashed } }) := by
  unfold saveLocked
  by_cases hhas : faults.hasFails = true
  · refine .inl ⟨.has, s, by rw [hhas]; rfl, id, ?_⟩
    rw [if_pos (.inl hhas)]
    exact .nil _ _ s
  rw [if_neg hhas, outcome_bind_ok (outcome_get s)]
  by_cases hexists : (s.get height format).isSome = true
  · refine .inl ⟨.alreadyExists height format, s, by rw [if_pos hexists]; rfl, id, ?_⟩
    rw [if_pos (.inr (.inl hexists))]
    exact .nil _ _ s
  rw [if_neg hexists]
  have hfiles : (if faults.hasFails = true ∨ (s.get height format).isSome = true ∨
      faults.mkdirAllFails = true then [] else filesWritten chunks 0) =
      if false = true ∨ faults.mkdirAllFails = false then filesWritten chunks 0 else [] := by
    cases faults.mkdirAllFails <;> simp [hhas, hexists]
  have hwrote := wrote_saveChunks sha256 faults chunks false 0 ⟨height, format, 0, [], []⟩ [] s
  rw [hfiles]
  rcases hloop : outcome (saveChunks sha256 faults chunks false 0 ⟨height, format, 0, [], []⟩ []) s
    with ⟨e | ⟨index, snapshot, hashed⟩, s₁⟩
  · rw [hloop] at hwrote
    exact .inl ⟨e, s₁, outcome_bind_error hloop, not_inProgress_of_saveChunks hloop, hwrote⟩
  · rw [hloop] at hwrote
    rw [outcome_bind_ok hloop]
    cases hmetadata : faults.metadataFails with
    | true =>
      obtain ⟨e, hsave, hprogress⟩ := outcome_saveSnapshot_of_fails hmetadata
        { snapshot with chunks := index, hash := sha256 hashed } s₁
      exact .inl ⟨e, s₁, outcome_bind_error hsave, hprogress, hwrote⟩
    | false =>
      exact .inr ⟨index, snapshot, hashed, s₁, rfl,
        outcome_bind_ok (outcome_saveSnapshot hmetadata _ s₁)⟩

/-- Height zero is refused. -/
theorem outcome_save_of_zero (faults : SaveFaults) (format : UInt32) (chunks : List ChunkBody)
    (s : SnapshotStore) :
    outcome (save sha256 faults 0 format chunks) s = (.error .heightZero, s) := rfl

/-- While another `Save` of the height is under way, the call is refused. -/
theorem outcome_save_of_isSaving (hheight : height ≠ 0) (h : s.isSaving height = true) :
    outcome (save sha256 faults height format chunks) s =
      (.error (.alreadySaving height), { s with saving := s.saving.insert height true }) := by
  rw [save, if_neg hheight, outcome_bind_ok (outcome_get s), outcome_bind_ok (outcome_set s _),
    if_pos h]
  rfl

/-- A `Save` that is let in. -/
theorem outcome_save (hheight : height ≠ 0) (h : s.isSaving height = false) :
    outcome (save sha256 faults height format chunks) s =
      let inner := outcome (saveLocked sha256 faults height format chunks)
        { s with saving := s.saving.insert height true }
      (inner.1, { inner.2 with saving := inner.2.saving.erase height }) := by
  rw [save, if_neg hheight, outcome_bind_ok (outcome_get s), outcome_bind_ok (outcome_set s _),
    if_neg (Bool.eq_false_iff.mp h), outcome_deferring]

/-- The mark of a height that is not being saved is gone. -/
theorem isSaving_erase (s : SnapshotStore) (height : UInt64) :
    isSaving { s with saving := s.saving.erase height } height = false := by
  rw [isSaving, lookup_erase_ite, if_pos rfl]
  rfl

/-- What a `Save` that fails leaves: the files that it wrote, and no mark of its own. -/
theorem save_error (h : outcome (save sha256 faults height format chunks) s = (.error e, s')) :
    s'.db = s.db ∧
      (∀ hgt f c, s'.loadChunk hgt f c = if hgt = height ∧ f = format then
        ((filesOfSave s faults height format chunks).reverse.lookup c).or (s.loadChunk hgt f c)
        else s.loadChunk hgt f c) ∧
      (s.isSaving height = false → ¬e.InProgress ∧ s'.isSaving height = false) := by
  rw [filesOfSave]
  by_cases hheight : height = 0
  · subst hheight
    rw [outcome_save_of_zero] at h
    cases h
    rw [if_pos (.inl rfl)]
    exact ⟨rfl, fun _ _ _ => (ite_self _).symm, fun hsaving => ⟨id, hsaving⟩⟩
  cases hsaving : s.isSaving height with
  | true =>
    rw [outcome_save_of_isSaving hheight hsaving] at h
    cases h
    rw [if_pos (.inr (.inl rfl))]
    exact ⟨rfl, fun _ _ _ => (ite_self _).symm, fun h => absurd h (by decide)⟩
  | false =>
    rw [outcome_save hheight hsaving] at h
    rcases saveLocked_cases sha256 faults height format chunks
      { s with saving := s.saving.insert height true } with
      ⟨e', s₁, hlocked, hprogress, hwrote⟩ | ⟨_, _, _, _, -, hlocked⟩
    · rw [hlocked] at h
      cases h
      refine ⟨hwrote.db_eq, ?_, fun _ => ⟨hprogress, isSaving_erase s₁ height⟩⟩
      simp only [hheight, Bool.false_eq_true, false_or]
      exact hwrote.loadChunk_eq
    · rw [hlocked] at h
      cases h

/-- `Get`, `List` and `GetLatest` answer the same. -/
structure SameMetadata (s s' : SnapshotStore) : Prop where
  get_eq : ∀ height format, s'.get height format = s.get height format
  list_eq : s'.list = s.list
  getLatest_eq : s'.getLatest = s.getLatest

theorem SameMetadata.of_db_eq (h : s'.db = s.db) : SameMetadata s s' where
  get_eq height format := by rw [get, get, h]
  list_eq := by rw [list, list, newestFirst, newestFirst, h]
  getLatest_eq := by rw [getLatest, getLatest, newestFirst, newestFirst, h]

/-- No `Save` and no `Delete` of the height is refused as in progress. -/
def NotRefused (sha256 : Bytes → Bytes) (s : SnapshotStore) (height : UInt64) : Prop :=
  (∀ faults format chunks e,
    (outcome (save sha256 faults height format chunks) s).1 = .error e → ¬e.InProgress) ∧
  ∀ format e, (outcome (delete height format) s).1 = .error e → ¬e.InProgress

/-- A height not being saved is not refused. -/
theorem notRefused_of_isSaving_eq_false (h : s.isSaving height = false) :
    NotRefused sha256 s height := by
  constructor
  · intro faults format chunks e he
    exact ((save_error (Prod.ext he rfl)).2.2 h).1
  · intro format e he
    rw [delete, outcome_bind_ok (outcome_get s), if_neg (Bool.eq_false_iff.mp h)] at he
    cases he

/-- **A `Save` that fails leaves the files that it wrote, and nothing else**: the metadata of all
snapshots and the chunks of all other ones are as before, and unless another `Save` of the height
was under way, the height is free. -/
theorem failedSave_leaves {faults : SaveFaults} {height : UInt64} {format : UInt32}
    {chunks : List ChunkBody} {s s' : SnapshotStore} {e : SnapshotStoreError}
    (h : outcome (save sha256 faults height format chunks) s = (.error e, s')) :
    SameMetadata s s' ∧
      (∀ hgt f c, s'.loadChunk hgt f c = if hgt = height ∧ f = format then
        ((filesOfSave s faults height format chunks).reverse.lookup c).or (s.loadChunk hgt f c)
        else s.loadChunk hgt f c) ∧
      (s.isSaving height = false → NotRefused sha256 s' height) := by
  obtain ⟨hdb, hchunks, hsaving⟩ := save_error h
  exact ⟨.of_db_eq hdb, hchunks, fun hfree =>
    notRefused_of_isSaving_eq_false (hsaving hfree).2⟩

/-- A store without snapshots. -/
def fresh : SnapshotStore := { db := ∅, dir := ['s'], saving := ∅, fs := .empty }

/-- The second of three chunks fails: the first one can be loaded, and what was read of the
second. -/
theorem failedSave_leaves_of_three :
    ∃ e s', outcome (save id { } 1 1 [{ reader := ⟨[[1]], .eof⟩ },
        { reader := ⟨[[2]], .other "boom"⟩ }, { reader := ⟨[[3]], .eof⟩ }]) fresh = (.error e, s') ∧
      SameMetadata fresh s' ∧ s'.loadChunk 1 1 0 = some [1] ∧ s'.loadChunk 1 1 1 = some [2] ∧
      s'.loadChunk 1 1 2 = none ∧ NotRefused id s' 1 := by
  have hsave : outcome (save id { } 1 1 [{ reader := ⟨[[1]], .eof⟩ },
      { reader := ⟨[[2]], .other "boom"⟩ }, { reader := ⟨[[3]], .eof⟩ }]) fresh =
      (.error (.generate 1), _) := rfl
  obtain ⟨hmeta, hchunks, hfree⟩ := failedSave_leaves hsave
  exact ⟨.generate 1, _, hsave, hmeta, hchunks 1 1 0, hchunks 1 1 1, hchunks 1 1 2, hfree rfl⟩

/-- The reader of the first chunk fails after one byte, which can be loaded afterwards. And while
another `Save` of the height is under way, the one that fails leaves the height refused. -/
theorem failedSave_leaves_trace :
    (∃ e s', outcome (save id { } 1 1 [{ reader := ⟨[[1]], .other "boom"⟩ }]) fresh =
        (.error e, s') ∧ s'.loadChunk 1 1 0 ≠ fresh.loadChunk 1 1 0) ∧
      ∃ e s', outcome (save id { } 1 1 []) { fresh with saving := AList.singleton 1 true } =
        (.error e, s') ∧ ¬ NotRefused id s' 1 := by
  constructor
  · refine ⟨.generate 0, _, rfl, ?_⟩
    decide
  · exact ⟨.alreadySaving 1, _, rfl, fun h => h.2 1 _ rfl trivial⟩

end SnapshotStore

end MelodiaStore
