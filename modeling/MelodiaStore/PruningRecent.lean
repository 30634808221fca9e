import MelodiaStore.Pruning

/-!
# Recent Heights Are Kept

`GetPruningHeight` says up to which height versions may be pruned, and has to leave the current
height and the `KeepRecent` heights before it alone. Heights are signed and the options are not:
`GetPruningHeight` converts `KeepRecent` to `int64` first, so that an option of `2 ^ 63` or more,
which `Validate` accepts, becomes a negative number of heights.

## Main results

* `keepsRecent_iff`: in every state of the manager, the recent heights are kept exactly if
  `KeepRecent` is below `2 ^ 63`, or nothing is pruned at this height for another reason.
* `keepsRecent_fails`: with the greatest `KeepRecent` the current height itself is offered.
-/

namespace MelodiaStore

variable {δ : Type}

namespace PruningManager

/-! ### Runs of the manager -/

/-- `Manager.SetOptions`. -/
def setOptions (m : PruningManager δ) (opts : PruningOptions) : PruningManager δ := { m with opts }

/-- `Manager.SetSnapshotInterval`. -/
def setSnapshotInterval (m : PruningManager δ) (snapshotInterval : UInt64) : PruningManager δ :=
  { m with snapshotInterval }

end PruningManager

/-- A call that changes the manager. -/
inductive PruningUpdate
  | setOptions (opts : PruningOptions)
  | setSnapshotInterval (snapshotInterval : UInt64)
  | handleSnapshotHeight (height : ℤ)

/-- The calls as steps of a run. -/
def PruningUpdate.perform [Database δ] : PruningUpdate → EStateM Panic (PruningManager δ) Unit
  | setOptions opts => modify fun m => m.setOptions opts
  | setSnapshotInterval snapshotInterval =>
    modify fun m => m.setSnapshotInterval snapshotInterval
  | handleSnapshotHeight height => PruningManager.handleSnapshotHeight height

namespace PruningManager

variable {m : PruningManager δ} {height : ℤ}

/-- The list of heights is not empty, and adding an interval to one of them does not overflow. -/
structure Waiting (m : PruningManager δ) : Prop where
  ne_nil : m.pruneSnapshotHeights ≠ []
  range : ∀ h ∈ m.pruneSnapshotHeights, 0 ≤ h ∧ h < 2 ^ 62

/-- A new manager. -/
theorem waiting_newManager (db : δ) : Waiting (newManager db) where
  ne_nil := List.cons_ne_nil _ _
  range h hh := by
    rw [List.mem_singleton.mp hh]
    decide

/-- **The step lemma**: every call keeps the list in its range. -/
theorem Waiting.perform [Database δ] (hm : Waiting m) {call : PruningUpdate}
    (hcall : ∀ h, call = .handleSnapshotHeight h → h < 2 ^ 62) :
    Waiting (outcome call.perform m).2 := by
  cases call with
  | setOptions opts | setSnapshotInterval snapshotInterval => exact ⟨hm.ne_nil, hm.range⟩
  | handleSnapshotHeight height =>
    by_cases hgo : m.opts.strategy = .nothing ∨ height ≤ 0
    · have hrun := run_handleSnapshotHeight_of_ignored m hgo
      rw [PruningUpdate.perform, outcome_of_ok hrun]
      exact hm
    · obtain ⟨hstrategy, hpos⟩ := not_or.mp hgo
      obtain ⟨db, -, hrun⟩ := exists_run_handleSnapshotHeight m hstrategy (not_le.mp hpos)
      rw [PruningUpdate.perform, outcome_of_ok hrun]
      refine ⟨addHeight_ne_nil _ _ _, fun h hh => ?_⟩
      rcases mem_of_mem_addHeight hh with hold | rfl
      · exact hm.range h hold
      · exact ⟨(not_le.mp hpos).le, hcall h rfl⟩

/-- The list is in its range in every state of a run. -/
theorem waiting_outcomes [Database δ] (db : δ) {calls : List PruningUpdate}
    (hcalls : ∀ h, .handleSnapshotHeight h ∈ calls → h < 2 ^ 62) :
    Waiting (outcomes PruningUpdate.perform calls (newManager db)).2 := by
  refine outcomes_invariant (fun call hcall m hm => hm.perform ?_) (waiting_newManager db)
  rintro h rfl
  exact hcalls h hcall

/-! ### The height -/

/-- Neither the height nor one of the `KeepRecent` heights before it may be pruned. -/
def KeepsRecent (m : PruningManager δ) (height : ℤ) : Prop :=
  m.getPruningHeight height = 0 ∨
    0 < m.getPruningHeight height ∧ m.getPruningHeight height + m.opts.keepRecent.toNat < height

instance (m : PruningManager δ) (height : ℤ) : Decidable (KeepsRecent m height) :=
  inferInstanceAs (Decidable (_ ∨ _ ∧ _))

/-- `KeepRecent` is a signed number of heights, or nothing is pruned: not with this strategy, not
at this height, or not yet, since the snapshot of the first height is still to come and the
subtraction does not overflow. -/
def KeepsSigned (m : PruningManager δ) (height : ℤ) : Prop :=
  m.opts.strategy = .nothing ∨ m.opts.keepRecent.toNat < 2 ^ 63 ∨
    height.tmod (int64 m.opts.interval.toNat) ≠ 0 ∨
    m.snapshotInterval = 1 ∧ m.pruneSnapshotHeights.head? = some 0 ∧
      height + 2 ^ 64 - m.opts.keepRecent.toNat ≤ 2 ^ 63

/-- The answer at a height that is not due. -/
theorem getPruningHeight_of_not_due
    (h : m.opts.strategy = .nothing ∨ height.tmod (int64 m.opts.interval.toNat) ≠ 0 ∨
      height ≤ int64 m.opts.keepRecent.toNat) : m.getPruningHeight height = 0 := by
  unfold getPruningHeight
  rcases h with hstrategy | hnot
  · rw [if_pos hstrategy]
  · rw [if_pos hnot, ite_self, ite_self]

/-- With a `KeepRecent` that becomes negative, the subtraction passes the current height, or it
overflows. -/
theorem int64_sub_keepRecent {keepRecent : ℕ} (hle : 2 ^ 63 ≤ keepRecent)
    (hlt : keepRecent < 2 ^ 64) (hheight : 1 ≤ height ∧ height < 2 ^ 63) :
    int64 (height - 1 - keepRecent) = if height + 2 ^ 64 - keepRecent ≤ 2 ^ 63
      then height - 1 + 2 ^ 64 - keepRecent else height - 1 - keepRecent := by
  rw [int64, Int.bmod_def]
  split_ifs <;> omega

/-- **Recent heights**: whatever options are accepted, whatever interval is set and whatever
heights were handled, neither the current height nor one of the last `KeepRecent` heights is
offered exactly if `KeepRecent` fits a signed word, or nothing is pruned for another reason. -/
theorem keepsRecent_iff [Database δ] (db : δ) {calls : List PruningUpdate}
    (hcalls : ∀ h, .handleSnapshotHeight h ∈ calls → h < 2 ^ 62)
    (hm : (outcomes PruningUpdate.perform calls (newManager db)).2 = m)
    (hvalid : m.opts.validate = .ok ()) (hs : m.snapshotInterval.toNat < 2 ^ 62)
    (hheight : 1 ≤ height ∧ height < 2 ^ 63) : KeepsRecent m height ↔ KeepsSigned m height := by
  obtain ⟨hne, hrange⟩ : Waiting m := hm ▸ waiting_outcomes db hcalls
  obtain ⟨first, heights, hheights⟩ := List.exists_cons_of_ne_nil hne
  have hfirst := hrange first (hheights ▸ List.mem_cons_self)
  by_cases hnot : m.opts.strategy = .nothing ∨ height.tmod (int64 m.opts.interval.toNat) ≠ 0
  · -- nothing is pruned at this height
    refine iff_of_true (.inl (getPruningHeight_of_not_due ?_)) ?_
    · exact hnot.imp_right .inl
    · exact hnot.imp_right fun h => .inr (.inl h)
  obtain ⟨hstrategy, hdue⟩ := not_or.mp hnot
  rw [not_not] at hdue
  have hinterval : m.opts.interval ≠ 0 := by
    intro hzero
    rw [PruningOptions.validate, if_neg hstrategy, if_pos hzero] at hvalid
    cases hvalid
  have hword := m.opts.keepRecent.toNat_lt
  have hsn : int64 (first + m.snapshotInterval.toNat - 1) = first + m.snapshotInterval.toNat - 1 :=
    int64_of_range (by omega) (by omega)
  have hzero : m.snapshotInterval = 0 ↔ m.snapshotInterval.toNat = 0 := UInt64.toNat_inj.symm
  by_cases hkeep : m.opts.keepRecent.toNat < 2 ^ 63
  · refine iff_of_true ?_ (.inr (.inl hkeep))
    have hsigned : int64 m.opts.keepRecent.toNat = m.opts.keepRecent.toNat :=
      int64_of_range (by omega) (by omega)
    by_cases hle : height ≤ m.opts.keepRecent.toNat
    · exact .inl (getPruningHeight_of_not_due (.inr (.inr (hle.trans_eq hsigned.symm))))
    · rw [KeepsRecent, getPruningHeight_eq hstrategy hinterval hdue
        (hsigned.trans_lt (not_le.mp hle)) hheights, hsn,
        int64_of_range (n := height - 1 - _) (by omega) (by omega), if_congr hzero rfl rfl]
      split_ifs <;> omega
  · -- the conversion has made the option negative
    have hsigned : int64 m.opts.keepRecent.toNat = m.opts.keepRecent.toNat - 2 ^ 64 :=
      int64_of_le (by omega) (by omega)
    have hone : m.snapshotInterval = 1 ↔ m.snapshotInterval.toNat = 1 := UInt64.toNat_inj.symm
    have hhead : m.pruneSnapshotHeights.head? = some 0 ↔ first = 0 := by
      rw [hheights, List.head?_cons, Option.some.injEq]
    rw [KeepsRecent, KeepsSigned, getPruningHeight_eq hstrategy hinterval hdue (by omega) hheights,
      hsn, int64_sub_keepRecent (by omega) hword hheight, hhead, hone, if_congr hzero rfl rfl]
    simp only [hstrategy, hdue, hkeep, false_or, ne_eq, not_true_eq_false]
    split_ifs <;> omega

/-- Without snapshots and with the default options the last 362880 heights are kept. -/
theorem keepsRecent_iff_default :
    KeepsRecent (outcomes PruningUpdate.perform [.setOptions (.newPruningOptions .default)]
      (newManager MemDB.new)).2 400000 := by
  refine (keepsRecent_iff MemDB.new (by simp) rfl rfl ?_ ?_).mpr (.inr (.inl ?_))
  all_goals decide

/-- **The current height is offered**: with the greatest `KeepRecent` and an interval of 10, the
node prunes up to height 10 when it is at height 10. -/
theorem keepsRecent_fails :
    let m := (outcomes PruningUpdate.perform
      [.setOptions (.newCustomPruningOptions 18446744073709551615 10)] (newManager MemDB.new)).2
    m.opts.validate = .ok () ∧ m.getPruningHeight 10 = 10 ∧ ¬KeepsRecent m 10 :=
  ⟨rfl, by decide, by decide⟩

end PruningManager

end MelodiaStore
