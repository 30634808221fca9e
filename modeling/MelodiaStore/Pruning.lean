import Mathlib.Tactic.Linarith
import MelodiaStore.Runs
import MelodiaStore.Simulation
import MelodiaStore.Types
import MelodiaStore.Words

/-!
# The Pruning Manager

`Manager` of `pruning/manager.go` with the options of `pruning/types/options.go`. The manager says
up to which height old versions may be pruned. A height that is a multiple of the snapshot
interval has to stay until its snapshot is taken; `HandleSnapshotHeight` is told so, and keeps a
sorted list of the heights whose snapshots are done, from which it drops the leading run. The list
is written to the database, and `LoadSnapshotHeights` reads it back after a crash.

## Main results

* `handled_of_le_getPruningHeight`: after any calls and restarts, every multiple of the interval
  that may be pruned was handled before.
-/

namespace MelodiaStore

/-! ### Options -/

/-- `types.PruningStrategy`. -/
inductive PruningStrategy
  | default
  | everything
  | nothing
  | custom
  | undefined
  deriving DecidableEq

/-- `types.PruningOptions`. -/
structure PruningOptions where
  keepRecent : UInt64
  interval : UInt64
  strategy : PruningStrategy

/-- The errors of `PruningOptions.Validate`. -/
inductive PruningOptionsError
  /-- `'pruning-interval' must not be 0` -/
  | intervalZero
  /-- `'pruning-interval' must not be less than 10` -/
  | intervalTooSmall
  /-- `'pruning-keep-recent' must not be less than 2` -/
  | keepRecentTooSmall

namespace PruningOptions

/-- `pruneEverythingKeepRecent`. -/
def pruneEverythingKeepRecent : UInt64 := 2

/-- `pruneEverythingInterval`. -/
def pruneEverythingInterval : UInt64 := 10

/-- `types.NewPruningOptions`. -/
def newPruningOptions : PruningStrategy → PruningOptions
  | .default => ⟨362880, 10, .default⟩
  | .everything => ⟨pruneEverythingKeepRecent, pruneEverythingInterval, .everything⟩
  | .nothing => ⟨0, 0, .nothing⟩
  | _ => ⟨0, 0, .custom⟩

/-- `types.NewCustomPruningOptions`. -/
def newCustomPruningOptions (keepRecent interval : UInt64) : PruningOptions :=
  ⟨keepRecent, interval, .custom⟩

/-- `types.NewPruningOptionsFromString`. -/
def newPruningOptionsFromString (strategy : String) : PruningOptions :=
  if strategy = "everything" then newPruningOptions .everything
  else if strategy = "nothing" then newPruningOptions .nothing
  else newPruningOptions .default

/-- `PruningOptions.Validate`. -/
def validate (po : PruningOptions) : Except PruningOptionsError Unit :=
  if po.strategy = .nothing then .ok ()
  else if po.interval = 0 then .error .intervalZero
  else if po.interval < pruneEverythingInterval then .error .intervalTooSmall
  else if po.keepRecent < pruneEverythingKeepRecent then .error .keepRecentTooSmall
  else .ok ()

/-- The options of every string are valid. -/
theorem validate_newPruningOptionsFromString (strategy : String) :
    (newPruningOptionsFromString strategy).validate = .ok () := by
  unfold newPruningOptionsFromString
  split
  · rfl
  · split <;> rfl

end PruningOptions

/-! ### The manager -/

/-- The errors of `LoadSnapshotHeights`. -/
inductive PruningError
  /-- `failed to get post-snapshot pruned heights`, with the error of the database -/
  | db (e : DbError)
  /-- `NegativeHeightsError`: `failed to get pruned heights`, with the height -/
  | negativeHeights (height : ℤ)

/-- `pruning.Manager`, without its logger. Heights are `int64`, and `int64` marks the places where
the code's arithmetic may overflow. -/
structure PruningManager (δ : Type) where
  db : δ
  opts : PruningOptions
  snapshotInterval : UInt64
  pruneSnapshotHeights : List ℤ

/-- `pruneSnapshotHeightsKey`. -/
def pruneSnapshotHeightsKey : Bytes := ascii "s/prunesnapshotheights"

theorem pruneSnapshotHeightsKey_ne_nil : pruneSnapshotHeightsKey ≠ [] := by decide

/-- `int64SliceToBytes`. -/
def int64SliceToBytes (slice : List ℤ) : Bytes :=
  slice.flatMap fun ph => bigEndian 8 (ph % 2 ^ 64).toNat

/-- The loop of `loadPruningSnapshotHeights`: each eight bytes are a height, and bytes that are
left over are sliced beyond their end. -/
def readHeights : Bytes → Except Panic (Except PruningError (List ℤ))
  | [] => .ok (.ok [])
  | b₀ :: b₁ :: b₂ :: b₃ :: b₄ :: b₅ :: b₆ :: b₇ :: bz =>
    let h := int64 (ofBigEndian [b₀, b₁, b₂, b₃, b₄, b₅, b₆, b₇])
    if h < 0 then .ok (.error (.negativeHeights h))
    else do
      let heights ← readHeights bz
      return heights.map (h :: ·)
  | _ => .error .indexOutOfRange

variable {δ : Type}

/-- `loadPruningSnapshotHeights`. -/
def loadPruningSnapshotHeights [Database δ] (db : δ) :
    Except Panic (Except PruningError (List ℤ)) :=
  match Database.get db pruneSnapshotHeightsKey with
  | .error e => .ok (.error (.db e))
  | .ok bz => readHeights (bz.getD [])

namespace PruningManager

/-- `pruning.NewManager`. -/
def newManager (db : δ) : PruningManager δ :=
  { db
    opts := .newPruningOptions .nothing
    snapshotInterval := 0
    pruneSnapshotHeights := [0] }

/-- The height `HandleSnapshotHeight` takes for the one after `h`. -/
def nextHeight (snapshotInterval : UInt64) (h : ℤ) : ℤ :=
  int64 (h + int64 snapshotInterval.toNat)

/-- What `HandleSnapshotHeight` makes of the list: the new height is added, the list is sorted,
and the loop looks for the end of the leading run. -/
def addHeight (snapshotInterval : UInt64) (heights : List ℤ) (height : ℤ) : List ℤ :=
  dropRun (nextHeight snapshotInterval) ((heights ++ [height]).insertionSort (· ≤ ·))

/-- `Manager.HandleSnapshotHeight`. -/
def handleSnapshotHeight [Database δ] (height : ℤ) : EStateM Panic (PruningManager δ) Unit := do
  let m ← MonadState.get
  if m.opts.strategy = .nothing ∨ height ≤ 0 then
    return
  let heights := addHeight m.snapshotInterval m.pruneSnapshotHeights height
  set { m with pruneSnapshotHeights := heights }
  match Database.set m.db pruneSnapshotHeightsKey (some (int64SliceToBytes heights)) with
  | .error e => throw (.db e)
  | .ok db => set { m with pruneSnapshotHeights := heights, db }

/-- `Manager.GetPruningHeight`. -/
def getPruningHeight (m : PruningManager δ) (height : ℤ) : ℤ :=
  if m.opts.strategy = .nothing then 0
  else if m.opts.interval ≤ 0 then 0
  else if height.tmod (int64 m.opts.interval.toNat) ≠ 0 ∨
      height ≤ int64 m.opts.keepRecent.toNat then 0
  else
    let pruneHeight := int64 (int64 (height - 1) - int64 m.opts.keepRecent.toNat)
    if m.snapshotInterval ≤ 0 then pruneHeight
    else
      match m.pruneSnapshotHeights with
      | [] => 0
      | first :: _ =>
        let snHeight := int64 (int64 (first + int64 m.snapshotInterval.toNat) - 1)
        if snHeight < pruneHeight then snHeight else pruneHeight

/-- `Manager.LoadSnapshotHeights`. -/
def loadSnapshotHeights [Database δ] (db : δ) :
    EStateM Panic (PruningManager δ) (Except PruningError Unit) := do
  let m ← MonadState.get
  if m.opts.strategy = .nothing then
    return .ok ()
  match ← ofExcept (loadPruningSnapshotHeights db) with
  | .error e => return .error e
  | .ok [] => return .ok ()
  | .ok heights =>
    set { m with pruneSnapshotHeights := heights }
    return .ok ()

end PruningManager

/-- A call of the manager, or a restart of the node. -/
inductive PruningCall
  | handleSnapshotHeight (height : ℤ)
  | restart

namespace PruningManager

/-- A manager on a database with the options and the interval of the node. -/
def startedOn (db : δ) (opts : PruningOptions) (snapshotInterval : UInt64) : PruningManager δ :=
  { newManager db with opts, snapshotInterval }

/-- The calls; a restart keeps the database and loads the heights. -/
def performPruning [Database δ] (opts : PruningOptions) (snapshotInterval : UInt64) :
    PruningCall → EStateM Panic (PruningManager δ) (Except PruningError Unit)
  | .handleSnapshotHeight height => do
    PruningManager.handleSnapshotHeight height
    return .ok ()
  | .restart => do
    let m ← MonadState.get
    set (startedOn m.db opts snapshotInterval)
    loadSnapshotHeights m.db

/-- The manager after some calls, the first of them on an empty database. -/
def afterCalls (opts : PruningOptions) (snapshotInterval : UInt64) (calls : List PruningCall) :
    PruningManager MemDB :=
  (outcomes (performPruning opts snapshotInterval) calls (startedOn .new opts snapshotInterval)).2

/-! ### What a call does -/

variable [Database δ] {opts : PruningOptions} {s : UInt64} {heights : List ℤ} {height h : ℤ}

/-- The list stays sorted. -/
theorem pairwise_addHeight (s : UInt64) (heights : List ℤ) (height : ℤ) :
    (addHeight s heights height).Pairwise (· ≤ ·) :=
  (List.pairwise_insertionSort (· ≤ ·) _).sublist (dropRun_suffix _ _).sublist

theorem mem_sorted_iff : h ∈ (heights ++ [height]).insertionSort (· ≤ ·) ↔
    h ∈ heights ∨ h = height := by
  rw [List.mem_insertionSort, List.mem_append, List.mem_singleton]

theorem mem_of_mem_addHeight (hmem : h ∈ addHeight s heights height) :
    h ∈ heights ∨ h = height :=
  mem_sorted_iff.mp ((dropRun_suffix _ _).subset hmem)

/-- The list is never empty. -/
theorem addHeight_ne_nil (s : UInt64) (heights : List ℤ) (height : ℤ) :
    addHeight s heights height ≠ [] :=
  dropRun_ne_nil (List.ne_nil_of_mem (mem_sorted_iff.mpr (.inr rfl)))

/-- A height that is ignored. -/
theorem run_handleSnapshotHeight_of_ignored (m : PruningManager δ)
    (h : m.opts.strategy = .nothing ∨ height ≤ 0) :
    (handleSnapshotHeight height).run m = .ok () m := by
  rw [handleSnapshotHeight, EStateM.run_bind, EStateM.run_get]
  dsimp only
  rw [if_pos h]
  rfl

/-- A height that is not ignored is added to the list, and the list is written to the
database. -/
theorem exists_run_handleSnapshotHeight (m : PruningManager δ)
    (hstrategy : m.opts.strategy ≠ .nothing) (hpos : 0 < height) :
    ∃ db : δ,
      Database.lookup db pruneSnapshotHeightsKey =
        some (int64SliceToBytes (addHeight m.snapshotInterval m.pruneSnapshotHeights height)) ∧
      (handleSnapshotHeight height).run m = .ok () { m with
          db
          pruneSnapshotHeights := addHeight m.snapshotInterval m.pruneSnapshotHeights height } := by
  have hgo : ¬(m.opts.strategy = .nothing ∨ height ≤ 0) := by
    rintro (h | h)
    · exact hstrategy h
    · omega
  obtain ⟨db, hset, hlookup⟩ : ∃ db, Database.set m.db pruneSnapshotHeightsKey
      (some (int64SliceToBytes (addHeight m.snapshotInterval m.pruneSnapshotHeights height))) =
        .ok db ∧ Database.lookup db pruneSnapshotHeightsKey =
        some (int64SliceToBytes (addHeight m.snapshotInterval m.pruneSnapshotHeights height)) := by
    obtain ⟨db, hset, hlookup⟩ := Database.set_eq m.db _ _ pruneSnapshotHeightsKey_ne_nil
    exact ⟨db, hset, (hlookup _).trans (if_pos rfl)⟩
  refine ⟨db, hlookup, ?_⟩
  rw [handleSnapshotHeight, EStateM.run_bind, EStateM.run_get]
  dsimp only
  rw [if_neg hgo, EStateM.run_bind]
  dsimp only [EStateM.run_set]
  rw [hset]
  rfl

end PruningManager

/-- A signed word comes back from its eight bytes. -/
theorem int64_ofBigEndian {x : ℤ} (hle : -2 ^ 63 ≤ x) (hlt : x < 2 ^ 63) :
    int64 (ofBigEndian (bigEndian 8 (x % 2 ^ 64).toNat)) = x := by
  rw [ofBigEndian_bigEndian_of_lt (by omega), Int.toNat_of_nonneg (by omega)]
  rcases Int.lt_or_le x 0 with hneg | hpos
  · have hword : x % 2 ^ 64 = x + 2 ^ 64 := by omega
    rw [hword, int64_of_le] <;> omega
  · have hword : x % 2 ^ 64 = x := by omega
    rw [hword, int64_of_range hle hlt]

variable {heights : List ℤ}

/-- **Reading back** heights: the list comes back, or the first height that is negative is
reported. -/
theorem readHeights_int64SliceToBytes_eq (h : ∀ x ∈ heights, -2 ^ 63 ≤ x ∧ x < 2 ^ 63) :
    readHeights (int64SliceToBytes heights) = .ok ((heights.find? (· < 0)).elim (.ok heights)
      fun x => .error (.negativeHeights x)) := by
  induction heights with
  | nil => rfl
  | cons x heights ih =>
    obtain ⟨⟨hle, hlt⟩, hrest⟩ := List.forall_mem_cons.mp h
    have hread (n : ℕ) (bz : Bytes) : readHeights (bigEndian 8 n ++ bz) =
        if int64 (ofBigEndian (bigEndian 8 n)) < 0 then
          .ok (.error (.negativeHeights (int64 (ofBigEndian (bigEndian 8 n)))))
        else (readHeights bz).map fun l =>
          l.map (int64 (ofBigEndian (bigEndian 8 n)) :: ·) := rfl
    rw [int64SliceToBytes, List.flatMap_cons, ← int64SliceToBytes, hread,
      int64_ofBigEndian hle hlt, ih hrest]
    by_cases hneg : x < 0
    · rw [if_pos hneg, List.find?_cons_of_pos (by simpa using hneg)]
      rfl
    · rw [if_neg hneg, List.find?_cons_of_neg (by simpa using hneg)]
      cases heights.find? (· < 0) with
      | none => rfl
      | some y => rfl

/-- Heights that are not negative all come back. -/
theorem readHeights_int64SliceToBytes (h : ∀ x ∈ heights, 0 ≤ x ∧ x < 2 ^ 63) :
    readHeights (int64SliceToBytes heights) = .ok (.ok heights) := by
  have hnone : heights.find? (· < 0) = none := by
    rw [List.find?_eq_none]
    intro x hx
    simpa using (h x hx).1
  rw [readHeights_int64SliceToBytes_eq, hnone]
  · rfl
  · intro x hx
    have := h x hx
    omega

namespace PruningManager

variable [Database δ] {opts : PruningOptions} {s : UInt64} {heights : List ℤ}
  {height h first : ℤ} {m : PruningManager δ} {handled : Set ℤ}

/-- A height that is handled, as a call. -/
theorem outcome_handleSnapshotHeight {m' : PruningManager δ}
    (h : (handleSnapshotHeight height).run m = .ok () m') :
    outcome (performPruning opts s (.handleSnapshotHeight height)) m = (.ok (.ok ()), m') := by
  apply outcome_of_ok
  rw [performPruning, EStateM.run_bind, h]
  rfl

/-- Heights that were written replace those of the manager. -/
theorem run_loadSnapshotHeights_of_load {db : δ} (hstrategy : m.opts.strategy ≠ .nothing)
    (hload : loadPruningSnapshotHeights db = .ok (.ok heights)) :
    (loadSnapshotHeights db).run m = .ok (.ok ()) { m with
      pruneSnapshotHeights := if heights = [] then m.pruneSnapshotHeights else heights } := by
  rw [loadSnapshotHeights, EStateM.run_bind, EStateM.run_get]
  dsimp only
  rw [if_neg hstrategy, hload, EStateM.run_bind]
  cases heights with
  | nil => rfl
  | cons h heights => rfl

/-- A restart brings back the heights that were written, if any were. -/
theorem outcome_restart (hstrategy : opts.strategy ≠ .nothing)
    (hload : loadPruningSnapshotHeights m.db = .ok (.ok heights)) :
    outcome (performPruning opts s .restart) m = (.ok (.ok ()), { startedOn m.db opts s with
      pruneSnapshotHeights := if heights = [] then [0] else heights }) := by
  apply outcome_of_ok
  have hgo : (startedOn m.db opts s).opts.strategy ≠ .nothing := hstrategy
  rw [performPruning, EStateM.run_bind, EStateM.run_get]
  dsimp only
  rw [EStateM.run_bind]
  exact run_loadSnapshotHeights_of_load hgo hload

/-! ### No multiple is pruned before it is handled -/

theorem nextHeight_of_range (hle : 0 ≤ h) (hlt : h + s.toNat < 2 ^ 63) :
    nextHeight s h = h + s.toNat := by
  rw [nextHeight, int64_add_int64, int64_of_range] <;> omega

/-- **The barrier**: the list has a multiple of the interval up to which every multiple was
handled. -/
structure Barrier (s : UInt64) (handled : Set ℤ) (heights : List ℤ) : Prop where
  sorted : heights.Pairwise (· ≤ ·)
  range : ∀ h ∈ heights, 0 ≤ h ∧ h < 2 ^ 62
  origin : ∀ h ∈ heights, 0 < h → h ∈ handled
  reached : ∃ top ∈ heights, (s.toNat : ℤ) ∣ top ∧
    ∀ m, (s.toNat : ℤ) ∣ m → 0 < m → m ≤ top → m ∈ handled

/-- A new list. -/
theorem barrier_zero (s : UInt64) (handled : Set ℤ) : Barrier s handled [0] where
  sorted := List.pairwise_singleton _ _
  range h hh := by rw [List.mem_singleton.mp hh]; decide
  origin h hh hpos := absurd (List.mem_singleton.mp hh) hpos.ne'
  reached := ⟨0, List.mem_cons_self, dvd_zero _, fun m _ hpos hle => absurd hle (not_le.mpr hpos)⟩

/-- As long as the iterated successors are small, nothing overflows. -/
theorem iterate_nextHeight (hs : s.toNat < 2 ^ 62) {k : ℕ}
    (hrange : ∀ j ≤ k, 0 ≤ (nextHeight s)^[j] h ∧ (nextHeight s)^[j] h < 2 ^ 62) :
    (nextHeight s)^[k] h = h + k * s.toNat := by
  induction k with
  | zero => simp
  | succ k ih =>
    have hk := ih fun j hj => hrange j (by omega)
    obtain ⟨hle, hlt⟩ := hrange k (by omega)
    rw [Function.iterate_succ_apply', nextHeight_of_range hle (by omega), hk]
    push_cast
    ring

/-- **The step lemma**: handling a height keeps the barrier. -/
theorem Barrier.addHeight (hbarrier : Barrier s handled heights) (hs : s.toNat < 2 ^ 62)
    (hpos : 0 < height) (hlt : height < 2 ^ 62) (hmem : height ∈ handled) :
    Barrier s handled (addHeight s heights height) := by
  have hrange : ∀ h, h ∈ heights ∨ h = height → 0 ≤ h ∧ h < 2 ^ 62 := by
    rintro h (hh | rfl)
    · exact hbarrier.range h hh
    · exact ⟨hpos.le, hlt⟩
  have horigin : ∀ h, h ∈ heights ∨ h = height → 0 < h → h ∈ handled := by
    rintro h (hh | rfl) hpos
    · exact hbarrier.origin h hh hpos
    · exact hmem
  refine ⟨pairwise_addHeight s heights height, fun h hh => hrange h (mem_of_mem_addHeight hh),
    fun h hh => horigin h (mem_of_mem_addHeight hh), ?_⟩
  -- the barrier moves along the leading run, whose elements were all handled
  obtain ⟨top, htop, hdvd, hall⟩ := hbarrier.reached
  obtain ⟨k, hk, hrun⟩ := exists_mem_dropRun (nextHeight s)
    (mem_sorted_iff.mpr (.inl htop) : top ∈ (heights ++ [height]).insertionSort (· ≤ ·))
  have hiter : ∀ j ≤ k, (nextHeight s)^[j] top = top + j * s.toNat := fun j hj =>
    iterate_nextHeight hs fun i hi => hrange _ (mem_sorted_iff.mp (hrun i (hi.trans hj)))
  refine ⟨_, hk, ?_, ?_⟩
  · rw [hiter k le_rfl]
    exact Int.dvd_add hdvd (Int.dvd_mul_left _ _)
  · intro m hm hmpos hmle
    rw [hiter k le_rfl] at hmle
    by_cases hbelow : m ≤ top
    · exact hall m hm hmpos hbelow
    · obtain ⟨j, hj⟩ := Int.dvd_sub hm hdvd
      have hsteps : 0 ≤ j ∧ j ≤ k := by
        constructor
        · by_contra hneg
          nlinarith
        · by_contra hgt
          nlinarith
      have hjtop : (nextHeight s)^[j.toNat] top = m := by
        rw [hiter _ (by omega), Int.toNat_of_nonneg hsteps.1]
        linarith [mul_comm (s.toNat : ℤ) j]
      rw [← hjtop] at hmpos ⊢
      exact horigin _ (mem_sorted_iff.mp (hrun _ (by omega))) hmpos

/-- What holds along a run: the list keeps the barrier, and the database holds the list, or
nothing as long as no height was handled. -/
structure Guarded (opts : PruningOptions) (s : UInt64) (handled : Set ℤ) (m : PruningManager δ) :
    Prop where
  opts_eq : m.opts = opts
  interval_eq : m.snapshotInterval = s
  barrier : Barrier s handled m.pruneSnapshotHeights
  saved : Database.lookup m.db pruneSnapshotHeightsKey = none ∧ m.pruneSnapshotHeights = [0] ∨
    Database.lookup m.db pruneSnapshotHeightsKey = some (int64SliceToBytes m.pruneSnapshotHeights)

/-- A new manager. -/
theorem guarded_startedOn (opts : PruningOptions) (s : UInt64) (handled : Set ℤ) :
    Guarded opts s handled (startedOn MemDB.new opts s) :=
  ⟨rfl, rfl, barrier_zero s handled, .inl ⟨rfl, rfl⟩⟩

/-- What is read of the database. -/
theorem loadPruningSnapshotHeights_eq (db : δ) : loadPruningSnapshotHeights db =
    readHeights ((Database.lookup db pruneSnapshotHeightsKey).getD []) := by
  rw [loadPruningSnapshotHeights, Database.get_eq db _ pruneSnapshotHeightsKey_ne_nil]

/-- **The step lemma** for a run. -/
theorem Guarded.perform (hguard : Guarded opts s handled m) (hstrategy : opts.strategy ≠ .nothing)
    (hs : s.toNat < 2 ^ 62) {call : PruningCall}
    (hcall : ∀ h, call = .handleSnapshotHeight h → h < 2 ^ 62 ∧ h ∈ handled) :
    Guarded opts s handled (outcome (performPruning opts s call) m).2 := by
  obtain ⟨rfl, rfl, hbarrier, hsaved⟩ := hguard
  cases call with
  | handleSnapshotHeight height =>
    by_cases hpos : 0 < height
    · obtain ⟨hlt, hmem⟩ := hcall height rfl
      obtain ⟨db, hlookup, hrun⟩ := exists_run_handleSnapshotHeight m hstrategy hpos
      rw [outcome_handleSnapshotHeight hrun]
      exact ⟨rfl, rfl, hbarrier.addHeight hs hpos hlt hmem, .inr hlookup⟩
    · rw [outcome_handleSnapshotHeight
        (run_handleSnapshotHeight_of_ignored m (.inr (not_lt.mp hpos)))]
      exact ⟨rfl, rfl, hbarrier, hsaved⟩
  | restart =>
    rcases hsaved with ⟨hnone, hzero⟩ | hsome
    · have hload : loadPruningSnapshotHeights m.db = .ok (.ok []) := by
        rw [loadPruningSnapshotHeights_eq, hnone]
        rfl
      rw [outcome_restart hstrategy hload]
      exact ⟨rfl, rfl, hzero ▸ hbarrier, .inl ⟨hnone, rfl⟩⟩
    · have hload : loadPruningSnapshotHeights m.db = .ok (.ok m.pruneSnapshotHeights) := by
        rw [loadPruningSnapshotHeights_eq, hsome]
        refine readHeights_int64SliceToBytes fun h hh => ?_
        have := hbarrier.range h hh
        omega
      have hne : m.pruneSnapshotHeights ≠ [] := by
        obtain ⟨top, htop, -⟩ := hbarrier.reached
        exact List.ne_nil_of_mem htop
      rw [outcome_restart hstrategy hload, if_neg hne]
      exact ⟨rfl, rfl, hbarrier, .inr hsome⟩

omit [Database δ] in
/-- What `GetPruningHeight` returns where pruning happens: it stops before the snapshot that is the
next one to wait for. -/
theorem getPruningHeight_eq (hstrategy : m.opts.strategy ≠ .nothing)
    (hinterval : m.opts.interval ≠ 0) (hdue : height.tmod (int64 m.opts.interval.toNat) = 0)
    (hgt : int64 m.opts.keepRecent.toNat < height)
    (hheights : m.pruneSnapshotHeights = first :: heights) :
    m.getPruningHeight height =
      if m.snapshotInterval = 0 then int64 (height - 1 - m.opts.keepRecent.toNat)
      else min (int64 (first + m.snapshotInterval.toNat - 1))
        (int64 (height - 1 - m.opts.keepRecent.toNat)) := by
  have hgo : ¬(height.tmod (int64 m.opts.interval.toNat) ≠ 0 ∨
      height ≤ int64 m.opts.keepRecent.toNat) :=
    not_or.mpr ⟨not_not.mpr hdue, not_le.mpr hgt⟩
  have hzero : ∀ {n : UInt64}, n ≤ 0 ↔ n = 0 := by
    intro n
    rw [UInt64.le_iff_toNat_le, ← UInt64.toNat_inj]
    exact Nat.le_zero
  unfold getPruningHeight
  rw [if_neg hstrategy, if_neg (hzero.not.mpr hinterval), if_neg hgo, hheights]
  dsimp only
  rw [int64_add_int64, int64_int64_sub, int64_sub_int64, int64_int64_sub]
  refine if_congr hzero rfl ?_
  split_ifs with hmin
  · exact (min_eq_left hmin.le).symm
  · exact (min_eq_right (not_lt.mp hmin)).symm

omit [Database δ] in
/-- Pruning stops below the height that is the next one to wait for. -/
theorem getPruningHeight_le (hheights : m.pruneSnapshotHeights = first :: heights)
    (hfirst : 0 ≤ first ∧ first < 2 ^ 62)
    (hs : 0 < m.snapshotInterval.toNat ∧ m.snapshotInterval.toNat < 2 ^ 62) (height : ℤ) :
    m.getPruningHeight height ≤ first + m.snapshotInterval.toNat - 1 := by
  have hsn : int64 (int64 (first + int64 m.snapshotInterval.toNat) - 1) =
      first + m.snapshotInterval.toNat - 1 := by
    rw [int64_add_int64, int64_int64_sub, int64_of_range] <;> omega
  have hinterval : ¬m.snapshotInterval ≤ 0 := by
    rw [UInt64.le_iff_toNat_le]
    exact not_le.mpr hs.1
  unfold getPruningHeight
  rw [if_neg hinterval, hheights]
  dsimp only
  rw [hsn]
  split_ifs <;> omega

/-- **Pruning never removes a height that awaits its snapshot**: after any calls and restarts,
every multiple of the interval that may be pruned was handled. -/
theorem handled_of_le_getPruningHeight {opts : PruningOptions} {s : UInt64}
    (hstrategy : opts.strategy ≠ .nothing) (hs : s.toNat < 2 ^ 62) {calls : List PruningCall}
    (hcalls : ∀ h, .handleSnapshotHeight h ∈ calls → h < 2 ^ 62) {height m : ℤ}
    (hdvd : (s.toNat : ℤ) ∣ m) (hpos : 0 < m)
    (hle : m ≤ (afterCalls opts s calls).getPruningHeight height) :
    .handleSnapshotHeight m ∈ calls := by
  have hspos : 0 < s.toNat := by
    rw [Nat.pos_iff_ne_zero]
    intro h0
    rw [h0, Nat.cast_zero, zero_dvd_iff] at hdvd
    omega
  have hguard : Guarded opts s {h | .handleSnapshotHeight h ∈ calls} (afterCalls opts s calls) := by
    refine outcomes_invariant (fun call hcall m hm => hm.perform hstrategy hs ?_)
      (guarded_startedOn opts s _)
    rintro h rfl
    exact ⟨hcalls h hcall, hcall⟩
  obtain ⟨hopts, hinterval, hbarrier, -⟩ := hguard
  obtain ⟨top, htop, hdvdtop, hall⟩ := hbarrier.reached
  obtain ⟨first, heights, hheights⟩ := List.exists_cons_of_ne_nil (List.ne_nil_of_mem htop)
  have hfirst : first ≤ top := by
    have hsorted := hbarrier.sorted
    rw [hheights] at htop hsorted
    rcases List.mem_cons.mp htop with rfl | htop
    · exact le_rfl
    · exact List.rel_of_pairwise_cons hsorted htop
  have hrange := hbarrier.range first (hheights ▸ List.mem_cons_self)
  have hbound := getPruningHeight_le hheights hrange (by rw [hinterval]; exact ⟨hspos, hs⟩) height
  rw [hinterval] at hbound
  apply hall m hdvd hpos
  -- both are multiples, and they differ by less than the interval
  by_contra hgt
  have := Int.le_of_dvd (by omega) (Int.dvd_sub hdvd hdvdtop)
  omega

/-- Heights in the wrong order, one of them off the grid, a restart, and a height again. -/
theorem handled_of_le_getPruningHeight_of_restart :
    20 ≤ (afterCalls (.newPruningOptions .everything) 10
      [.handleSnapshotHeight 20, .handleSnapshotHeight 25, .handleSnapshotHeight 10, .restart,
        .handleSnapshotHeight 10]).getPruningHeight 40 ∧
    .handleSnapshotHeight 20 ∈ [PruningCall.handleSnapshotHeight 20, .handleSnapshotHeight 25,
      .handleSnapshotHeight 10, .restart, .handleSnapshotHeight 10] := by
  refine ⟨by decide, ?_⟩
  exact @handled_of_le_getPruningHeight (.newPruningOptions .everything) 10 (by decide) (by decide)
    _ (by simp) 40 20 (by decide) (by decide) (by decide)

end PruningManager

end MelodiaStore
