import MelodiaStore.Pruning

/-!
# Snapshot Heights Survive a Restart

`HandleSnapshotHeight` writes the list of heights that wait for their snapshots to the database
each time it changes, eight bytes a height. A node that starts again makes a new manager and
calls `LoadSnapshotHeights`, which reads the bytes back.

What is on the database after the first height that was not ignored is the list in memory, and
the list has no negative height; so the new manager is the old one.

## Main results

* `heights_survive_restart`: what the bytes of a list are read back as, and that a restart is
  not noticed.
-/

namespace MelodiaStore

namespace PruningManager

variable {δ : Type}

/-- The heights are words, and none is negative. -/
def HeightsInRange (m : PruningManager δ) : Prop :=
  ∀ h ∈ m.pruneSnapshotHeights, 0 ≤ h ∧ h < 2 ^ 63

/-- The list is not empty, and the database has its bytes. -/
structure Persisted [Database δ] (m : PruningManager δ) : Prop where
  ne_nil : m.pruneSnapshotHeights ≠ []
  saved : Database.lookup m.db pruneSnapshotHeightsKey =
    some (int64SliceToBytes m.pruneSnapshotHeights)

/-- The manager after some heights were handled. -/
def afterHandling [Database δ] (m : PruningManager δ) (heights : List ℤ) : PruningManager δ :=
  (outcomes handleSnapshotHeight heights m).2

/-- A new manager. -/
theorem heightsInRange_startedOn (db : δ) (opts : PruningOptions) (s : UInt64) :
    HeightsInRange (startedOn db opts s) := by
  intro h hh
  rw [List.mem_singleton.mp hh]
  decide

variable [Database δ] {m : PruningManager δ} {height : ℤ}

/-- `HandleSnapshotHeight` ignores the height, or adds it and saves the list. -/
theorem handleSnapshotHeight_cases (m : PruningManager δ) (height : ℤ) :
    ((m.opts.strategy = .nothing ∨ height ≤ 0) ∧
      (outcome (handleSnapshotHeight height) m).2 = m) ∨
    (0 < height ∧ ∃ db : δ,
      Database.lookup db pruneSnapshotHeightsKey =
        some (int64SliceToBytes (addHeight m.snapshotInterval m.pruneSnapshotHeights height)) ∧
      (outcome (handleSnapshotHeight height) m).2 = { m with
        db
        pruneSnapshotHeights := addHeight m.snapshotInterval m.pruneSnapshotHeights height }) := by
  by_cases hgo : m.opts.strategy = .nothing ∨ height ≤ 0
  · rw [outcome_of_ok (run_handleSnapshotHeight_of_ignored m hgo)]
    exact .inl ⟨hgo, rfl⟩
  · obtain ⟨hstrategy, hpos⟩ := not_or.mp hgo
    obtain ⟨db, hlookup, hrun⟩ :=
      exists_run_handleSnapshotHeight m hstrategy (not_le.mp hpos)
    rw [outcome_of_ok hrun]
    exact .inr ⟨not_le.mp hpos, db, hlookup, rfl⟩

theorem opts_handleSnapshotHeight (m : PruningManager δ) (height : ℤ) :
    (outcome (handleSnapshotHeight height) m).2.opts = m.opts := by
  rcases handleSnapshotHeight_cases m height with ⟨-, h⟩ | ⟨-, db, -, h⟩ <;> rw [h]

/-- A handled height keeps the range. -/
theorem HeightsInRange.handleSnapshotHeight (hm : HeightsInRange m) (hlt : height < 2 ^ 63) :
    HeightsInRange (outcome (handleSnapshotHeight height) m).2 := by
  rcases handleSnapshotHeight_cases m height with ⟨-, h⟩ | ⟨hpos, db, -, h⟩
  · rwa [h]
  · rw [h]
    intro x hx
    rcases mem_of_mem_addHeight hx with hold | rfl
    · exact hm x hold
    · exact ⟨hpos.le, hlt⟩

/-- A height that is not ignored brings the list to the database. -/
theorem persisted_of_handled (hstrategy : m.opts.strategy ≠ .nothing) (hpos : 0 < height) :
    Persisted (outcome (handleSnapshotHeight height) m).2 := by
  rcases handleSnapshotHeight_cases m height with ⟨hignored, -⟩ | ⟨-, db, hlookup, h⟩
  · rcases hignored with hnothing | hle
    · exact absurd hnothing hstrategy
    · omega
  · rw [h]
    exact ⟨addHeight_ne_nil _ _ _, hlookup⟩

/-- **The step lemma**: every call keeps the list and its bytes in step. -/
theorem Persisted.handleSnapshotHeight (hm : Persisted m) (height : ℤ) :
    Persisted (outcome (handleSnapshotHeight height) m).2 := by
  rcases handleSnapshotHeight_cases m height with ⟨-, h⟩ | ⟨-, db, hlookup, h⟩
  · rwa [h]
  · rw [h]
    exact ⟨addHeight_ne_nil _ _ _, hlookup⟩

/-- **After the first height that is not ignored** the database has the list, and the heights
are in their range. -/
theorem persisted_afterHandling {heights : List ℤ} (hm : HeightsInRange m)
    (hstrategy : m.opts.strategy ≠ .nothing) (hheights : ∀ h ∈ heights, h < 2 ^ 63)
    (hhandled : (∃ h ∈ heights, 0 < h) ∨ Persisted m) :
    Persisted (m.afterHandling heights) ∧ HeightsInRange (m.afterHandling heights) ∧
      (m.afterHandling heights).opts = m.opts := by
  induction heights generalizing m with
  | nil =>
    rcases hhandled with ⟨h, hmem, -⟩ | hm'
    · exact absurd hmem List.not_mem_nil
    · exact ⟨hm', hm, rfl⟩
  | cons height heights ih =>
    obtain ⟨hheight, hrest⟩ := List.forall_mem_cons.mp hheights
    have hopts := opts_handleSnapshotHeight m height
    rw [← hopts]
    refine ih (hm.handleSnapshotHeight hheight) (by rwa [hopts]) hrest ?_
    rcases hhandled with ⟨h, hmem, hpos⟩ | hm'
    · rcases List.mem_cons.mp hmem with rfl | hmem
      · exact .inr (persisted_of_handled hstrategy hpos)
      · exact .inl ⟨h, hmem, hpos⟩
    · exact .inr (hm'.handleSnapshotHeight height)

/-- **A restart**: a new manager on the same database becomes the old one. -/
theorem run_loadSnapshotHeights (hm : Persisted m) (hrange : HeightsInRange m)
    (hstrategy : m.opts.strategy ≠ .nothing) :
    (loadSnapshotHeights m.db).run (startedOn m.db m.opts m.snapshotInterval) =
      .ok (.ok ()) m := by
  have hload : loadPruningSnapshotHeights m.db = .ok (.ok m.pruneSnapshotHeights) := by
    rw [loadPruningSnapshotHeights_eq, hm.saved]
    exact readHeights_int64SliceToBytes hrange
  have hgo : (startedOn m.db m.opts m.snapshotInterval).opts.strategy ≠ .nothing := hstrategy
  rw [run_loadSnapshotHeights_of_load hgo hload, if_neg hm.ne_nil]
  rfl

end PruningManager

/-- A question to the manager, or a height it is told of. -/
inductive PruningQuery
  | getPruningHeight (height : ℤ)
  | handleSnapshotHeight (height : ℤ)

/-- The answer to a query; `HandleSnapshotHeight` has none. -/
def PruningQuery.perform {δ : Type} [Database δ] :
    PruningQuery → EStateM Panic (PruningManager δ) (Option ℤ)
  | getPruningHeight height => do return some ((← MonadState.get).getPruningHeight height)
  | handleSnapshotHeight height => do
    PruningManager.handleSnapshotHeight height
    return none

open PruningManager in
/-- **Snapshot heights survive a restart.** The bytes of a list of heights are read back as the
list, or as an error with its first negative height, and no bytes as no heights. After calls of
`HandleSnapshotHeight` of which one was not ignored, on a manager with heights in their range as
a new one has them, a new manager with the same options and interval that loads the heights of
the same database has the same list, and all later calls have the same outcomes. -/
theorem heights_survive_restart {δ : Type} [Database δ] :
    (∀ (db : δ) (heights : List ℤ), (∀ h ∈ heights, -2 ^ 63 ≤ h ∧ h < 2 ^ 63) →
      Database.get db pruneSnapshotHeightsKey = .ok (some (int64SliceToBytes heights)) →
      loadPruningSnapshotHeights db = .ok ((heights.find? (· < 0)).elim (.ok heights)
        fun h => .error (.negativeHeights h))) ∧
    (∀ db : δ, Database.get db pruneSnapshotHeightsKey = .ok none →
      loadPruningSnapshotHeights db = .ok (.ok [])) ∧
    ∀ (start : PruningManager δ) (heights : List ℤ), start.HeightsInRange →
      (∀ h ∈ heights, -2 ^ 63 ≤ h ∧ h < 2 ^ 63) →
      start.opts.strategy ≠ .nothing → (∃ h ∈ heights, 0 < h) →
      ∃ fresh, (loadSnapshotHeights (start.afterHandling heights).db).run
          (startedOn (start.afterHandling heights).db (start.afterHandling heights).opts
            (start.afterHandling heights).snapshotInterval) = .ok (.ok ()) fresh ∧
        fresh.pruneSnapshotHeights = (start.afterHandling heights).pruneSnapshotHeights ∧
        ∀ later, outcomes PruningQuery.perform later fresh =
          outcomes PruningQuery.perform later (start.afterHandling heights) := by
  refine ⟨fun db heights hrange hget => ?_, fun db hget => ?_,
    fun start heights hstart hrange hstrategy hhandled => ?_⟩
  · rw [loadPruningSnapshotHeights, hget]
    exact readHeights_int64SliceToBytes_eq hrange
  · rw [loadPruningSnapshotHeights, hget]
    rfl
  · obtain ⟨hsaved, hheights, hopts⟩ := persisted_afterHandling hstart hstrategy
      (fun h hh => (hrange h hh).2) (.inl hhandled)
    exact ⟨_, run_loadSnapshotHeights hsaved hheights (hopts ▸ hstrategy), rfl, fun _ => rfl⟩

/-- Two heights, one of them ignored, on a new manager. -/
theorem heights_survive_restart_of_two : ∃ m fresh : PruningManager MemDB,
    m = PruningManager.afterHandling (.startedOn .new (.newPruningOptions .everything) 10)
        [-5, 20] ∧
      (PruningManager.loadSnapshotHeights m.db).run (.startedOn m.db m.opts m.snapshotInterval) =
        .ok (.ok ()) fresh ∧
      fresh.pruneSnapshotHeights = m.pruneSnapshotHeights := by
  obtain ⟨fresh, hrun, hheights, -⟩ := heights_survive_restart.2.2
    (.startedOn MemDB.new (.newPruningOptions .everything) 10) [-5, 20]
    (PruningManager.heightsInRange_startedOn _ _ _) (by decide) (by decide)
    ⟨20, by decide, by decide⟩
  exact ⟨_, fresh, rfl, hrun, hheights⟩

end MelodiaStore
