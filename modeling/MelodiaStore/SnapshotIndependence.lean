import MelodiaStore.SnapshotStore

/-!
# Independence of Snapshots

What is in the snapshot store after any sequence of `Save`, `Delete` and `Prune` calls that all
succeed. Each snapshot that `Get` finds is the one that the last `Save` of its height and format was
given, chunk by chunk, as long as the number of its chunks fits in the `uint32` in which `Save`
counts them; and a call changes nothing of the snapshots that it is not about.

## Main results

* `SnapshotStore.snapshots_independent`: every snapshot is stored as it was saved, after every
  sequence of calls whose `Save`s have fewer than `2 ^ 32` chunks.
* `SnapshotStore.snapshots_independent_fails`: a `Save` of `2 ^ 32` chunks.
-/

namespace MelodiaStore

namespace SnapshotStore

variable {sha256 : Bytes → Bytes} {s s' s'' : SnapshotStore}

/-! ### A Save that succeeds -/

variable {chunks : List ChunkBody} {faults : SaveFaults} {index : UInt32}

/-- The chunks that a `Save` was given, as the bytes of their readers. -/
def chunkData (chunks : List ChunkBody) : List Bytes := chunks.map fun body => body.reader.content

/-- No call that is made for a chunk fails. -/
def Clean (chunks : List ChunkBody) : Prop :=
  ∀ body ∈ chunks, body.createFails = false ∧ body.fails = false

theorem clean_cons_iff {body : ChunkBody} :
    Clean (body :: chunks) ↔ (body.createFails = false ∧ body.fails = false) ∧ Clean chunks :=
  List.forall_mem_cons

/-- The index, the metadata and the hashed bytes after the loop of `Save`. -/
def afterChunks (sha256 : Bytes → Bytes) (index : UInt32) (snapshot : Snapshot) (hashed : Bytes)
    (chunks : List ChunkBody) : UInt32 × Snapshot × Bytes :=
  (index + UInt32.ofNat chunks.length,
    { snapshot with chunkHashes := snapshot.chunkHashes ++ (chunkData chunks).map sha256 },
    hashed ++ (chunkData chunks).flatten)

/-- The loop gets to its end exactly if no chunk fails, and then has hashed all the chunks. -/
theorem saveChunks_ok {dirCreated : Bool} {snapshot : Snapshot} {hashed : Bytes}
    {r : UInt32 × Snapshot × Bytes}
    (h : outcome (saveChunks sha256 faults chunks dirCreated index snapshot hashed) s =
      (.ok r, s')) :
    Clean chunks ∧ r = afterChunks sha256 index snapshot hashed chunks ∧
      (chunks = [] ∨ dirCreated = true ∨ faults.mkdirAllFails = false) := by
  induction chunks generalizing dirCreated index snapshot hashed s with
  | nil =>
    cases h
    refine ⟨fun body hbody => absurd hbody List.not_mem_nil, ?_, .inl rfl⟩
    simp [afterChunks, chunkData]
  | cons body chunks ih =>
    rcases saveChunks_cons sha256 faults body chunks dirCreated index snapshot hashed s with
      ⟨e, s₁, heq, -⟩ | ⟨hdir, hcreate, hfails, s₁, -, heq⟩
    · rw [heq] at h
      cases h
    · rw [heq] at h
      obtain ⟨hclean, hr, -⟩ := ih h
      refine ⟨clean_cons_iff.mpr ⟨⟨hcreate, hfails⟩, hclean⟩, ?_, .inr hdir⟩
      rw [hr, afterChunks, afterChunks, List.length_cons, add_ofNat_succ]
      simp [chunkData, withChunk]

/-- Clean chunks are all saved. -/
theorem exists_saveChunks_of_clean (sha256 : Bytes → Bytes) (hmkdir : faults.mkdirAllFails = false)
    (hclean : Clean chunks) (dirCreated : Bool) (index : UInt32) (snapshot : Snapshot)
    (hashed : Bytes) (s : SnapshotStore) :
    ∃ r s', outcome (saveChunks sha256 faults chunks dirCreated index snapshot hashed) s =
      (.ok r, s') := by
  induction chunks generalizing dirCreated index snapshot hashed s with
  | nil => exact ⟨_, s, rfl⟩
  | cons body chunks ih =>
    obtain ⟨hbody, hrest⟩ := clean_cons_iff.mp hclean
    rcases saveChunks_cons sha256 faults body chunks dirCreated index snapshot hashed s with
      ⟨e, s₁, -, -, hnot, -⟩ | ⟨-, -, -, s₁, -, heq⟩
    · exact absurd ⟨.inr hmkdir, hbody⟩ hnot
    · obtain ⟨r, s', hr⟩ := ih hrest true (index + 1)
        (withChunk sha256 snapshot body.reader.content) (hashed ++ body.reader.content) s₁
      exact ⟨r, s', heq.trans hr⟩

/-- The numbers of the files of the loop. -/
theorem mem_filesWritten {c : UInt32} {data : Bytes} (h : (c, data) ∈ filesWritten chunks index) :
    ∃ j < chunks.length, c = index + UInt32.ofNat j := by
  induction chunks generalizing index with
  | nil => exact absurd h List.not_mem_nil
  | cons body chunks ih =>
    have hrest : (c, data) ∈ filesWritten chunks (index + 1) →
        ∃ j < chunks.length + 1, c = index + UInt32.ofNat j := by
      intro hmem
      obtain ⟨j, hj, hc⟩ := ih hmem
      refine ⟨j + 1, Nat.add_lt_add_right hj 1, ?_⟩
      rw [hc, add_ofNat_succ]
    have hfirst : (c, data) = (index, body.copied) →
        ∃ j < chunks.length + 1, c = index + UInt32.ofNat j := by
      intro heq
      exact ⟨0, Nat.succ_pos _, by rw [(Prod.mk.inj heq).1]; exact (UInt32.add_zero index).symm⟩
    rw [filesWritten] at h
    split_ifs at h with hcreate hfails
    · exact absurd h List.not_mem_nil
    · exact hfirst (List.mem_singleton.mp h)
    · exact (List.mem_cons.mp h).elim hfirst hrest

/-- **The chunks are in their files**, when their numbers do not come again. -/
theorem lookup_filesWritten (hclean : Clean chunks) (hlength : chunks.length ≤ 2 ^ 32)
    (index : UInt32) {i : ℕ} (hi : i < chunks.length) :
    (filesWritten chunks index).reverse.lookup (index + UInt32.ofNat i) =
      (chunkData chunks)[i]? := by
  induction chunks generalizing index i with
  | nil => exact absurd hi (Nat.not_lt_zero i)
  | cons body chunks ih =>
    obtain ⟨⟨hcreate, hfails⟩, hrest⟩ := clean_cons_iff.mp hclean
    rw [List.length_cons] at hi hlength
    rw [filesWritten, hcreate, hfails, if_neg Bool.false_ne_true, if_neg Bool.false_ne_true,
      List.reverse_cons, List.lookup_append, ChunkBody.copied_of_not_fails hfails]
    cases i with
    | zero =>
      have hnone : (filesWritten chunks (index + 1)).reverse.lookup index = none := by
        rw [List.lookup_eq_none_iff]
        rintro ⟨c, data⟩ hmem
        obtain ⟨j, hj, rfl⟩ := mem_filesWritten (List.mem_reverse.mp hmem)
        exact bne_iff_ne.mpr (ne_add_one_add_ofNat index (by omega))
      have hindex : index + UInt32.ofNat 0 = index := UInt32.add_zero index
      rw [hindex, hnone, List.lookup_cons_self]
      rfl
    | succ i =>
      have hlt : i < (chunkData chunks).length := by
        rw [chunkData, List.length_map]
        omega
      rw [add_ofNat_succ, ih hrest (by omega) (index + 1) (by omega),
        List.getElem?_eq_getElem hlt]
      exact (List.getElem?_eq_getElem hlt).symm

/-- The metadata of a snapshot with the given chunks. -/
def snapshotOf (sha256 : Bytes → Bytes) (height : UInt64) (format : UInt32)
    (chunks : List ChunkBody) : Snapshot where
  height := height
  format := format
  chunks := UInt32.ofNat chunks.length
  hash := sha256 (chunkData chunks).flatten
  chunkHashes := (chunkData chunks).map sha256

section

variable {faults : SaveFaults} {height : UInt64} {format : UInt32} {chunks : List ChunkBody}
  {snapshot : Snapshot}

/-- **What a `Save` that succeeds leaves**: the files of its chunks, and their metadata. -/
theorem save_ok (h : outcome (save sha256 faults height format chunks) s = (.ok snapshot, s')) :
    Clean chunks ∧ snapshot = snapshotOf sha256 height format chunks ∧
      s'.db = s.db.insert (encodeKey height format) snapshot ∧
      ∀ hgt f c, s'.loadChunk hgt f c = if hgt = height ∧ f = format then
        ((filesWritten chunks 0).reverse.lookup c).or (s.loadChunk hgt f c)
        else s.loadChunk hgt f c := by
  by_cases hheight : height = 0
  · subst hheight
    rw [outcome_save_of_zero] at h
    cases h
  cases hsaving : s.isSaving height with
  | true =>
    rw [outcome_save_of_isSaving hheight hsaving] at h
    cases h
  | false =>
    rw [outcome_save hheight hsaving] at h
    rcases saveLocked_cases sha256 faults height format chunks
      { s with saving := s.saving.insert height true } with
      ⟨e, s₁, hlocked, -⟩ | ⟨index, snap, hashed, s₁, hloop, hlocked⟩
    · rw [hlocked] at h
      cases h
    · rw [hlocked] at h
      cases h
      obtain ⟨hclean, hr, hdir⟩ := saveChunks_ok hloop
      cases hr
      have hwrote := wrote_saveChunks sha256 faults chunks false 0 ⟨height, format, 0, [], []⟩ []
        { s with saving := s.saving.insert height true }
      have hfiles : (if false = true ∨ faults.mkdirAllFails = false then filesWritten chunks 0
          else []) = filesWritten chunks 0 := by
        rcases hdir with rfl | hdir
        · exact ite_self _
        · exact if_pos hdir
      rw [hloop, hfiles] at hwrote
      have hindex : (0 : UInt32) + UInt32.ofNat chunks.length = UInt32.ofNat chunks.length :=
        UInt32.zero_add _
      refine ⟨hclean, by simp only [hindex, snapshotOf, List.nil_append], ?_, ?_⟩
      · rw [← hwrote.db_eq]
      · exact hwrote.loadChunk_eq

/-- A `Save` with chunks that do not fail succeeds. -/
theorem exists_save_of_clean (hheight : height ≠ 0) (hsaving : s.isSaving height = false)
    (hget : s.get height format = none) (hclean : Clean chunks) :
    ∃ s', outcome (save sha256 { } height format chunks) s =
      (.ok (snapshotOf sha256 height format chunks), s') := by
  obtain ⟨⟨index, snap, hashed⟩, s₁, hloop⟩ := exists_saveChunks_of_clean sha256
    (show ({ } : SaveFaults).mkdirAllFails = false from rfl) hclean false 0
    ⟨height, format, 0, [], []⟩ [] { s with saving := s.saving.insert height true }
  have hexists : ¬(get { s with saving := s.saving.insert height true } height format).isSome =
      true := by
    rw [get] at hget
    rw [get, hget]
    exact Bool.false_ne_true
  have hlocked : ∃ snap s₂, outcome (saveLocked sha256 { } height format chunks)
      { s with saving := s.saving.insert height true } = (.ok snap, s₂) := by
    rw [saveLocked, if_neg Bool.false_ne_true, outcome_bind_ok (outcome_get _), if_neg hexists,
      outcome_bind_ok hloop]
    exact ⟨_, _, rfl⟩
  obtain ⟨snap, s₂, hlocked⟩ := hlocked
  have hsave : outcome (save sha256 { } height format chunks) s =
      (.ok snap, { s₂ with saving := s₂.saving.erase height }) := by
    rw [outcome_save hheight hsaving, hlocked]
  obtain ⟨-, rfl, -⟩ := save_ok hsave
  exact ⟨_, hsave⟩

end

/-! ### What Delete and Prune leave -/

/-- All that can be asked about one snapshot has the same answer. -/
structure SameSnapshot (height : UInt64) (format : UInt32) (s s' : SnapshotStore) : Prop where
  get_eq : s'.get height format = s.get height format
  loadChunk_eq : ∀ c, s'.loadChunk height format c = s.loadChunk height format c
  load_eq : s'.load height format = s.load height format

section

variable {height height' : UInt64} {format format' : UInt32} {snapshot : Snapshot}

/-- `Load` reads the metadata and the files. -/
theorem SameSnapshot.mk' (hget : s'.get height format = s.get height format)
    (hchunks : ∀ c, s'.loadChunk height format c = s.loadChunk height format c) :
    SameSnapshot height format s s' := by
  have hpipes : ∀ l, s'.loadChunks height format l = s.loadChunks height format l := by
    intro l
    induction l with
    | nil => rfl
    | cons c l ih => rw [loadChunks, loadChunks, hchunks, ih]
  refine ⟨hget, hchunks, ?_⟩
  simp only [load, hget, hpipes]

theorem SameSnapshot.trans (h : SameSnapshot height format s s')
    (h' : SameSnapshot height format s' s'') : SameSnapshot height format s s'' :=
  ⟨h'.get_eq.trans h.get_eq, fun c => (h'.loadChunk_eq c).trans (h.loadChunk_eq c),
    h'.load_eq.trans h.load_eq⟩

/-- What `Delete` and `Prune` can do: snapshots go, and the others stay as they are. -/
structure Shrinks (s s' : SnapshotStore) : Prop where
  lookup_of : ∀ k snapshot, s'.db.lookup k = some snapshot → s.db.lookup k = some snapshot
  same : ∀ height format, s'.get height format = none ∨ SameSnapshot height format s s'

theorem Shrinks.refl (s : SnapshotStore) : Shrinks s s :=
  ⟨fun _ _ h => h, fun _ _ => .inr ⟨rfl, fun _ => rfl, rfl⟩⟩

/-- Deletions one after the other. -/
theorem Shrinks.trans (h : Shrinks s s') (h' : Shrinks s' s'') : Shrinks s s'' where
  lookup_of k snapshot hk := h.lookup_of k snapshot (h'.lookup_of k snapshot hk)
  same height format := by
    rcases h'.same height format with hnone | hsame'
    · exact .inl hnone
    rcases h.same height format with hnone | hsame
    · exact .inl (hsame'.get_eq.trans hnone)
    · exact .inr (hsame.trans hsame')

theorem encodeKey_ne (h : ¬(height' = height ∧ format' = format)) :
    encodeKey height' format' ≠ encodeKey height format :=
  fun heq => h (encodeKey_inj heq)

theorem outcome_delete_of_isSaving (h : s.isSaving height = true) (format : UInt32) :
    outcome (delete height format) s = (.error (.saving height format), s) := by
  rw [delete, outcome_bind_ok (outcome_get s), if_pos h]
  rfl

/-- What is deleted. -/
theorem outcome_delete (h : s.isSaving height = false) (format : UInt32) :
    outcome (delete height format) s = (.ok (), { s with
      db := s.db.erase (encodeKey height format)
      fs := s.fs.removeAll (pathSnapshot s.dir height format) }) := by
  rw [delete, outcome_bind_ok (outcome_get s), if_neg (Bool.eq_false_iff.mp h)]
  rfl

/-- A `Delete` does not touch other snapshots. -/
theorem delete_same (h : ¬(height' = height ∧ format' = format)) :
    SameSnapshot height' format' s (outcome (delete height format) s).2 := by
  cases hsaving : s.isSaving height with
  | true =>
    rw [outcome_delete_of_isSaving hsaving]
    exact ⟨rfl, fun _ => rfl, rfl⟩
  | false =>
    rw [outcome_delete hsaving]
    refine .mk' ?_ fun c => ?_
    · rw [get, lookup_erase_ite, if_neg (encodeKey_ne h)]
      rfl
    · rw [loadChunk, FileSystem.readFile_removeAll, if_neg]
      · rfl
      · intro hunder
        obtain ⟨rfl, rfl⟩ := isUnder_pathSnapshot_iff.mp hunder
        exact h ⟨rfl, rfl⟩

/-- A `Delete` only deletes. -/
theorem shrinks_delete (height : UInt64) (format : UInt32) (s : SnapshotStore) :
    Shrinks s (outcome (delete height format) s).2 := by
  constructor
  · intro k snapshot hk
    cases hsaving : s.isSaving height with
    | true => rwa [outcome_delete_of_isSaving hsaving] at hk
    | false =>
      rw [outcome_delete hsaving, lookup_erase_ite] at hk
      split_ifs at hk
      exact hk
  · intro height' format'
    by_cases hhf : height' = height ∧ format' = format
    · obtain ⟨rfl, rfl⟩ := hhf
      cases hsaving : s.isSaving height' with
      | true =>
        rw [outcome_delete_of_isSaving hsaving]
        exact (Shrinks.refl s).same height' format'
      | false =>
        rw [outcome_delete hsaving, get, lookup_erase_ite, if_pos rfl]
        exact .inl rfl
    · exact .inr (delete_same hhf)

/-- The loop of `Prune` only deletes. -/
theorem shrinks_pruneLoop (retain : UInt32) (keys : List Bytes)
    (skip prunedHeights : GoMap UInt64 Bool) (pruned : UInt64) (s : SnapshotStore) :
    Shrinks s (outcome (pruneLoop retain keys skip prunedHeights pruned) s).2 := by
  induction keys generalizing skip prunedHeights pruned s with
  | nil => exact .refl s
  | cons key keys ih =>
    rw [pruneLoop]
    cases decodeKey key with
    | error e => exact .refl s
    | ok hf =>
      dsimp only
      split_ifs
      · exact ih _ _ _ s
      · exact snd_outcome_bind_rel (R := Shrinks) Shrinks.trans (shrinks_delete hf.1 hf.2)
          (fun _ => ih _ _ _) s

/-- Removing directories keeps the rest. -/
theorem shrinks_removeHeights (heights : List UInt64) (s : SnapshotStore) :
    Shrinks s (outcome (removeHeights heights) s).2 := by
  induction heights generalizing s with
  | nil => exact .refl s
  | cons height heights ih =>
    rw [removeHeights, outcome_bind_ok (outcome_get s)]
    cases hremove : s.fs.removeDir (pathHeight s.dir height) with
    | none => exact .refl s
    | some fs =>
      dsimp only
      rw [outcome_bind_ok (outcome_set s _)]
      have hshrinks : Shrinks s { s with fs } := by
        refine ⟨fun _ _ h => h, fun height format => .inr (.mk' rfl fun c => ?_)⟩
        exact FileSystem.readFile_of_removeDir hremove _
      exact hshrinks.trans (ih _)

/-- **`Prune` only deletes.** -/
theorem shrinks_prune (order : Traversal UInt64 Bool) (retain : UInt32) (s : SnapshotStore) :
    Shrinks s (outcome (prune order retain) s).2 := by
  rw [prune, outcome_bind_ok (outcome_get s)]
  refine snd_outcome_bind_rel (R := Shrinks) Shrinks.trans (shrinks_pruneLoop retain _ ∅ ∅ 0) ?_ s
  rintro ⟨prunedHeights, pruned⟩ s₁
  refine snd_outcome_bind_rel (R := Shrinks) Shrinks.trans (shrinks_removeHeights _) ?_ s₁
  exact fun _ s₂ => .refl s₂


/-- A `Save`, whether it succeeds or fails, does not touch other snapshots. -/
theorem save_same (sha256 : Bytes → Bytes) (faults : SaveFaults) (chunks : List ChunkBody)
    (h : ¬(height' = height ∧ format' = format)) :
    SameSnapshot height' format' s (outcome (save sha256 faults height format chunks) s).2 := by
  rcases hsave : outcome (save sha256 faults height format chunks) s with ⟨e | snapshot, s'⟩
  · obtain ⟨hdb, hchunks, -⟩ := save_error hsave
    refine .mk' (by rw [get, get, hdb]) fun c => ?_
    rw [hchunks, if_neg h]
  · obtain ⟨-, -, hdb, hchunks⟩ := save_ok hsave
    refine .mk' ?_ fun c => ?_
    · rw [get, get, hdb, lookup_insert_ite, if_neg (encodeKey_ne h)]
    · rw [hchunks, if_neg h]

/-! ### A snapshot as it was saved -/

/-- The metadata and the files of a snapshot are those of the given chunks. -/
structure Stored (sha256 : Bytes → Bytes) (s : SnapshotStore) (height : UInt64) (format : UInt32)
    (snapshot : Snapshot) (chunks : List Bytes) : Prop where
  chunks_eq : snapshot.chunks.toNat = chunks.length
  chunkHashes_eq : snapshot.chunkHashes = chunks.map sha256
  hash_eq : snapshot.hash = sha256 chunks.flatten
  loadChunk_eq : ∀ i < snapshot.chunks, s.loadChunk height format i = chunks[i.toNat]?
  load_eq : ∃ pipes, s.load height format = some (snapshot, pipes) ∧
    pipes.map Pipe.content = chunks ∧ ∀ p ∈ pipes, p.ending = .eof

/-- What is the same is stored the same. -/
theorem Stored.of_same {chunks : List Bytes} (h : Stored sha256 s height format snapshot chunks)
    (hsame : SameSnapshot height format s s') : Stored sha256 s' height format snapshot chunks where
  chunks_eq := h.chunks_eq
  chunkHashes_eq := h.chunkHashes_eq
  hash_eq := h.hash_eq
  loadChunk_eq i hi := (hsame.loadChunk_eq i).trans (h.loadChunk_eq i hi)
  load_eq := hsame.load_eq ▸ h.load_eq

/-- The pipes of `Load`, when all the files are there. -/
theorem loadChunks_of_forall₂ {l : List UInt32} {chunks : List Bytes}
    (h : List.Forall₂ (fun i data => s.loadChunk height format i = some data) l chunks) :
    (s.loadChunks height format l).map Pipe.content = chunks ∧
      ∀ p ∈ s.loadChunks height format l, p.ending = .eof := by
  induction h with
  | nil => exact ⟨rfl, fun p hp => absurd hp List.not_mem_nil⟩
  | @cons i data l chunks hfile _ ih =>
    have hcontent : (Pipe.mk ([data].filter (· ≠ [])) .eof).content = data := by
      by_cases hdata : data = []
      · simp [Pipe.content, hdata]
      · simp [Pipe.content, hdata]
    rw [loadChunks, hfile]
    dsimp only
    refine ⟨by rw [List.map_cons, hcontent, ih.1], ?_⟩
    rintro p (_ | ⟨_, hp⟩)
    · rfl
    · exact ih.2 p hp

/-- **A snapshot is stored as it was saved**, if `Save` could count its chunks. -/
theorem stored_of_save {faults : SaveFaults} {chunks : List ChunkBody}
    (h : outcome (save sha256 faults height format chunks) s = (.ok snapshot, s'))
    (hlength : chunks.length < 2 ^ 32) :
    Stored sha256 s' height format snapshot (chunkData chunks) := by
  obtain ⟨hclean, rfl, hdb, hchunks⟩ := save_ok h
  have hcount : (snapshotOf sha256 height format chunks).chunks.toNat = chunks.length :=
    UInt32.toNat_ofNat_of_lt' hlength
  have hdata : (chunkData chunks).length = chunks.length := List.length_map _
  have hfile : ∀ i < chunks.length,
      s'.loadChunk height format (UInt32.ofNat i) = (chunkData chunks)[i]? := by
    intro i hi
    have hlookup := lookup_filesWritten hclean (Nat.le_of_lt hlength) 0 hi
    rw [UInt32.zero_add] at hlookup
    rw [hchunks, if_pos ⟨rfl, rfl⟩, hlookup, List.getElem?_eq_getElem (hdata ▸ hi)]
    rfl
  refine ⟨hcount.trans hdata.symm, rfl, rfl, ?_, ?_⟩
  · intro i hi
    have hi' : i.toNat < chunks.length := hcount ▸ UInt32.lt_iff_toNat_lt.mp hi
    rw [← hfile i.toNat hi', UInt32.ofNat_toNat]
  · have hget : s'.get height format = some (snapshotOf sha256 height format chunks) := by
      rw [get, hdb, lookup_insert_ite, if_pos rfl]
    have hforall : List.Forall₂ (fun i data => s'.loadChunk height format i = some data)
        ((List.range chunks.length).map UInt32.ofNat) (chunkData chunks) := by
      rw [List.forall₂_iff_get]
      refine ⟨by rw [List.length_map, List.length_range, hdata], ?_⟩
      intro i hi hi'
      rw [List.get_eq_getElem, List.get_eq_getElem, List.getElem_map, List.getElem_range,
        hfile i (hdata ▸ hi'), List.getElem?_eq_getElem]
    have hpipes := loadChunks_of_forall₂ hforall
    refine ⟨_, by rw [load, hget, Option.map_some, hcount], hpipes⟩

end

end SnapshotStore

/-! ### Runs -/

/-- A call of the store, with the order of the `range` of a `Prune`. -/
inductive SnapshotCall
  | save (faults : SaveFaults) (height : UInt64) (format : UInt32) (chunks : List ChunkBody)
  | delete (height : UInt64) (format : UInt32)
  | prune (order : Traversal UInt64 Bool) (retain : UInt32)

namespace SnapshotCall

/-- Performs a call; only whether it succeeds is kept of its answer. -/
def perform (sha256 : Bytes → Bytes) : SnapshotCall → EStateM SnapshotStoreError SnapshotStore Unit
  | .save faults height format chunks => do
    let _ ← SnapshotStore.save sha256 faults height format chunks
    return
  | .delete height format => SnapshotStore.delete height format
  | .prune order retain => do
    let _ ← SnapshotStore.prune order retain
    return

/-- The chunks that a call saves for a snapshot. -/
def saves (height : UInt64) (format : UInt32) : SnapshotCall → Option (List Bytes)
  | .save _ height' format' chunks =>
    if height' = height ∧ format' = format then some (SnapshotStore.chunkData chunks) else none
  | _ => none

/-- The number of chunks of a `Save` fits in the `uint32` that counts them. -/
def Countable : SnapshotCall → Prop
  | .save _ _ _ chunks => chunks.length < 2 ^ 32
  | _ => True

instance instDecidableCountable : (call : SnapshotCall) → Decidable call.Countable
  | .save _ _ _ chunks => inferInstanceAs (Decidable (chunks.length < 2 ^ 32))
  | .delete _ _ => inferInstanceAs (Decidable True)
  | .prune _ _ => inferInstanceAs (Decidable True)

/-- What a call may change of a snapshot: a `Save` or `Delete` of another one changes nothing, and
a `Prune` changes nothing or deletes it. -/
def Keeps (height : UInt64) (format : UInt32) (s s' : SnapshotStore) : SnapshotCall → Prop
  | .save _ height' format' _ =>
    ¬(height = height' ∧ format = format') → SnapshotStore.SameSnapshot height format s s'
  | .delete height' format' =>
    ¬(height = height' ∧ format = format') → SnapshotStore.SameSnapshot height format s s'
  | .prune _ _ => s'.get height format = none ∨ SnapshotStore.SameSnapshot height format s s'

/-- What a call keeps of a snapshot. -/
theorem keeps (sha256 : Bytes → Bytes) (call : SnapshotCall) (height : UInt64) (format : UInt32)
    (s : SnapshotStore) :
    call.Keeps height format s (outcome (call.perform sha256) s).2 := by
  cases call with
  | save faults height' format' chunks =>
    intro h
    rw [perform, snd_outcome_bind fun _ => readOnly_pure _]
    exact SnapshotStore.save_same sha256 faults chunks h
  | delete height' format' => exact SnapshotStore.delete_same
  | prune order retain =>
    rw [perform, snd_outcome_bind fun _ => readOnly_pure _]
    exact (SnapshotStore.shrinks_prune order retain s).same height format

end SnapshotCall

namespace SnapshotStore

/-- The chunks of the last `Save` of a snapshot. -/
def lastSave (calls : List SnapshotCall) (height : UInt64) (format : UInt32) :
    Option (List Bytes) :=
  (calls.filterMap fun call => call.saves height format).getLast?

/-- What holds after a list of calls that succeeded. -/
structure Inv (sha256 : Bytes → Bytes) (calls : List SnapshotCall) (s : SnapshotStore) : Prop where
  key_eq : ∀ k snapshot, s.db.lookup k = some snapshot →
    k = encodeKey snapshot.height snapshot.format
  stored : ∀ height format snapshot, s.get height format = some snapshot →
    ∃ chunks, lastSave calls height format = some chunks ∧
      Stored sha256 s height format snapshot chunks

variable {sha256 : Bytes → Bytes} {calls : List SnapshotCall} {s s' : SnapshotStore}
  {call : SnapshotCall} {snapshot : Snapshot}

/-- The last `Save` after one more call. -/
theorem lastSave_append (call : SnapshotCall) (height : UInt64) (format : UInt32) :
    lastSave (calls ++ [call]) height format =
      (call.saves height format).or (lastSave calls height format) := by
  rw [lastSave, List.filterMap_append, List.getLast?_append]
  cases hsaves : call.saves height format with
  | none => simp [lastSave, hsaves]
  | some chunks => simp [hsaves]

/-- Deletions keep the invariant. -/
theorem Inv.shrinks (h : Inv sha256 calls s) (hshrinks : Shrinks s s')
    (hcall : ∀ height format, call.saves height format = none) :
    Inv sha256 (calls ++ [call]) s' where
  key_eq k snapshot hk := h.key_eq k snapshot (hshrinks.lookup_of k snapshot hk)
  stored height format snapshot hget := by
    rw [lastSave_append, hcall, Option.none_or]
    rcases hshrinks.same height format with hnone | hsame
    · rw [hnone] at hget
      cases hget
    · obtain ⟨chunks, hlast, hstored⟩ := h.stored height format snapshot (hsame.get_eq ▸ hget)
      exact ⟨chunks, hlast, hstored.of_same hsame⟩

/-- A `Save` keeps the invariant. -/
theorem Inv.save (h : Inv sha256 calls s) {faults : SaveFaults} {height : UInt64} {format : UInt32}
    {chunks : List ChunkBody}
    (hsave : outcome (save sha256 faults height format chunks) s = (.ok snapshot, s'))
    (hlength : chunks.length < 2 ^ 32) :
    Inv sha256 (calls ++ [.save faults height format chunks]) s' := by
  obtain ⟨-, hsnapshot, hdb, -⟩ := save_ok hsave
  constructor
  · intro k snap hk
    rw [hdb, lookup_insert_ite] at hk
    split_ifs at hk with hkey
    · cases hk
      rw [hkey, hsnapshot]
      rfl
    · exact h.key_eq k snap hk
  · intro hgt f snap hget
    rw [lastSave_append, SnapshotCall.saves]
    by_cases hhf : height = hgt ∧ format = f
    · obtain ⟨rfl, rfl⟩ := hhf
      rw [get, hdb, lookup_insert_ite, if_pos rfl] at hget
      cases hget
      rw [if_pos ⟨rfl, rfl⟩]
      exact ⟨chunkData chunks, rfl, stored_of_save hsave hlength⟩
    · have hsame : SameSnapshot hgt f s s' := by
        have hsame := save_same (s := s) sha256 faults chunks
          fun h => hhf ⟨h.1.symm, h.2.symm⟩
        rwa [hsave] at hsame
      obtain ⟨old, hlast, hstored⟩ := h.stored hgt f snap (hsame.get_eq ▸ hget)
      rw [if_neg hhf, Option.none_or]
      exact ⟨old, hlast, hstored.of_same hsame⟩

/-- Every call keeps the invariant. -/
theorem Inv.perform (h : Inv sha256 calls s) (hcount : call.Countable)
    (hok : outcome (call.perform sha256) s = (.ok (), s')) : Inv sha256 (calls ++ [call]) s' := by
  cases call with
  | save faults height format chunks =>
    rw [SnapshotCall.perform] at hok
    rcases hsave : outcome (SnapshotStore.save sha256 faults height format chunks) s
      with ⟨e | snapshot, s₁⟩
    · rw [outcome_bind_error hsave] at hok
      cases hok
    · rw [outcome_bind_ok hsave] at hok
      cases hok
      exact h.save hsave hcount
  | delete height format =>
    have hshrinks := shrinks_delete height format s
    rw [SnapshotCall.perform] at hok
    rw [hok] at hshrinks
    exact h.shrinks hshrinks fun _ _ => rfl
  | prune order retain =>
    have hshrinks := shrinks_prune order retain s
    rw [← snd_outcome_bind fun _ => readOnly_pure ()] at hshrinks
    rw [SnapshotCall.perform] at hok
    rw [hok] at hshrinks
    exact h.shrinks hshrinks fun _ _ => rfl

/-- The invariant after a run. -/
theorem Inv.outcomes {before : List SnapshotCall} (h : Inv sha256 before s)
    (hcount : ∀ call ∈ calls, call.Countable)
    (hok : ∀ r ∈ (outcomes (SnapshotCall.perform sha256) calls s).1, r = .ok ()) :
    Inv sha256 (before ++ calls) (outcomes (SnapshotCall.perform sha256) calls s).2 := by
  induction calls generalizing before s with
  | nil =>
    rw [List.append_nil]
    exact h
  | cons call calls ih =>
    have hfirst : (outcome (call.perform sha256) s).1 = .ok () := hok _ List.mem_cons_self
    have hinv := h.perform (hcount call List.mem_cons_self) (Prod.ext hfirst rfl)
    have hrest := ih hinv (fun c hc => hcount c (List.mem_cons_of_mem call hc))
      (fun r hr => hok r (List.mem_cons_of_mem _ hr))
    rwa [List.append_assoc] at hrest

/-- What is listed is found by its height and format. -/
theorem Inv.get_of_mem_list (h : Inv sha256 calls s) (hmem : snapshot ∈ s.list) :
    s.get snapshot.height snapshot.format = some snapshot := by
  obtain ⟨⟨k, snap⟩, hentry, rfl⟩ := List.mem_map.mp hmem
  have hlookup := mem_entries_iff.mp (mem_traverse.mp hentry).2
  rw [get, ← h.key_eq k snap hlookup]
  exact hlookup

/-- **Snapshots are stored independently.** After any calls that succeed, from a store without
snapshots, and whose `Save`s have fewer than `2 ^ 32` chunks: the snapshots that are listed are
found, the snapshots that are found are stored as the last `Save` of them was given them, and no
call changes the other ones. -/
theorem snapshots_independent (sha256 : Bytes → Bytes) {s₀ : SnapshotStore} (hempty : s₀.db = ∅)
    {calls : List SnapshotCall}
    (hok : ∀ r ∈ (outcomes (SnapshotCall.perform sha256) calls s₀).1, r = .ok ())
    (hcount : ∀ call ∈ calls, call.Countable) :
    let s := (outcomes (SnapshotCall.perform sha256) calls s₀).2
    (∀ snapshot ∈ s.list, s.get snapshot.height snapshot.format = some snapshot) ∧
      (∀ height format snapshot, s.get height format = some snapshot →
        ∃ chunks, lastSave calls height format = some chunks ∧
          Stored sha256 s height format snapshot chunks) ∧
      ∀ (call : SnapshotCall) height format,
        call.Keeps height format s (outcome (call.perform sha256) s).2 := by
  intro s
  have hstart : Inv sha256 [] s₀ := by
    constructor
    · intro k snapshot hk
      rw [hempty] at hk
      cases hk
    · intro height format snapshot hget
      rw [get, hempty] at hget
      cases hget
  have hinv : Inv sha256 ([] ++ calls) s := hstart.outcomes hcount hok
  exact ⟨fun _ => hinv.get_of_mem_list, hinv.stored,
    fun call height format => call.keeps sha256 height format s⟩

/-- Two snapshots of one height are saved, and one of them is deleted. -/
def savedAndDeleted : List SnapshotCall :=
  [.save { } 1 1 [{ reader := ⟨[[1], [2]], .eof⟩ }, { reader := ⟨[], .eof⟩ }],
    .save { } 1 2 [{ reader := ⟨[[3]], .eof⟩ }], .delete 1 2]

/-- The other one can be loaded. -/
theorem snapshots_independent_of_savedAndDeleted :
    (∀ r ∈ (outcomes (SnapshotCall.perform id) savedAndDeleted fresh).1, r = .ok ()) ∧
      Stored id (outcomes (SnapshotCall.perform id) savedAndDeleted fresh).2 1 1
        ⟨1, 1, 2, [1, 2], [[1, 2], []]⟩ [[1, 2], []] := by
  have hok : ∀ r ∈ (outcomes (SnapshotCall.perform id) savedAndDeleted fresh).1, r = .ok () := by
    decide
  obtain ⟨-, hstored, -⟩ := snapshots_independent id rfl hok (by decide)
  obtain ⟨chunks, hlast, hchunks⟩ := hstored 1 1 _ rfl
  cases hlast
  exact ⟨hok, hchunks⟩

/-- More chunks than `Save` can count, all of them empty. -/
def uncountable : List ChunkBody := List.replicate (2 ^ 32) { reader := ⟨[], .eof⟩ }

theorem clean_uncountable : Clean uncountable := by
  intro body hbody
  rw [List.eq_of_mem_replicate hbody]
  exact ⟨rfl, rfl⟩

/-- `2 ^ 32` chunks are saved, and counted as none. -/
theorem snapshots_independent_fails :
    ∃ s snapshot, outcome (SnapshotCall.perform id (.save { } 1 1 uncountable)) fresh =
        (.ok (), s) ∧
      s.get 1 1 = some snapshot ∧ snapshot.chunks.toNat ≠ uncountable.length := by
  have hsave : ∃ s, outcome (save id { } 1 1 uncountable) fresh =
      (.ok (snapshotOf id 1 1 uncountable), s) :=
    exists_save_of_clean (by decide) rfl rfl clean_uncountable
  obtain ⟨s, hsave⟩ := hsave
  obtain ⟨-, -, hdb, -⟩ := save_ok hsave
  refine ⟨s, snapshotOf id 1 1 uncountable, outcome_bind_ok hsave, ?_, ?_⟩
  · rw [get, hdb, lookup_insert_ite, if_pos rfl]
  · have hlength : uncountable.length = 2 ^ 32 := List.length_replicate
    rw [snapshotOf, hlength]
    decide

end SnapshotStore

end MelodiaStore
