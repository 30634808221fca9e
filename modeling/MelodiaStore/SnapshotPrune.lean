import MelodiaStore.Greatest
import MelodiaStore.SnapshotIndependence

/-!
# Pruning Snapshots

`Store.Prune` of `snapshots/store.go` deletes the snapshots of all but a number of most recent
heights, and then removes the directory of each of these heights with `os.Remove`. That one fails
for a directory that is not there, and for one that is not empty. But `Save` makes a directory only
when a first chunk comes, and a `Save` that fails leaves its files; so the snapshots may be gone
while `Prune` returns an error instead of their number.

## Main results

* `SnapshotStore.prunesExactly_iff`: a `Prune` succeeds and is exact if and only if the directory
  of every height that goes is there, with nothing but the snapshots that are listed.
* `SnapshotStore.prunesExactly_fails`: a snapshot without chunks.
-/

namespace MelodiaStore

/-! ### Paths of a height -/

section Paths

variable {dir path : Path} {height height' : UInt64} {format : UInt32}

theorem pathSnapshot_eq_join (dir : Path) (height : UInt64) (format : UInt32) :
    pathSnapshot dir height format =
      join dir (join (decimal height.toNat) (decimal format.toNat)) := by
  simp [pathSnapshot, pathHeight, join]

/-- The directories of different heights are beside each other. -/
theorem eq_of_isUnder_pathHeight (h : IsUnder (pathHeight dir height) (pathHeight dir height')) :
    height = height' :=
  UInt64.toNat_inj.mp (decimal_injective
    (eq_of_isUnder_of_notMem (slash_notMem_decimal _) (isUnder_join_iff.mp h)))

/-- The directory of a height is in none of the directories of its snapshots. -/
theorem not_isUnder_pathHeight :
    ¬IsUnder (pathSnapshot dir height format) (pathHeight dir height') := by
  intro h
  rw [pathSnapshot_eq_join] at h
  have heq := eq_of_isUnder_of_notMem (slash_notMem_decimal _) (isUnder_join_iff.mp h)
  have hmem : '/' ∈ decimal height'.toNat := by
    rw [← heq]
    exact List.mem_append_right _ List.mem_cons_self
  exact slash_notMem_decimal _ hmem

/-- What lies in the directory of a snapshot lies in the directory of its height only. -/
theorem eq_of_isUnder_of_isUnder (h : IsUnder (pathHeight dir height) path)
    (h' : IsUnder (pathSnapshot dir height' format) path) : height = height' := by
  rw [pathSnapshot_eq_join] at h'
  obtain ⟨rest, rfl⟩ := exists_eq_join h'
  obtain ⟨x, rfl⟩ := exists_eq_join (isUnder_join_iff.mp h')
  exact UInt64.toNat_inj.mp (decimal_injective (eq_of_isUnder_append (slash_notMem_decimal _)
    (slash_notMem_decimal _) (isUnder_join_iff.mp h)))

end Paths

namespace SnapshotStore

variable {s s' : SnapshotStore} {skip : GoMap UInt64 Bool} {kept : Finset ℕ}

/-! ### What is listed -/

/-- Each snapshot is under the key of its height and format. -/
def WellKeyed (s : SnapshotStore) : Prop :=
  ∀ k snapshot, s.db.lookup k = some snapshot → k = encodeKey snapshot.height snapshot.format

/-- The height and the format of the snapshots that are listed. -/
def listed (s : SnapshotStore) : List (UInt64 × UInt32) :=
  s.list.map fun snapshot => (snapshot.height, snapshot.format)

theorem WellKeyed.key_eq (h : WellKeyed s) {e : Bytes × Snapshot} (he : e ∈ s.newestFirst) :
    e.1 = encodeKey e.2.height e.2.format :=
  h e.1 e.2 (mem_entries_iff.mp (mem_traverse.mp he).2)

/-- The keys that the iterator of `Prune` meets. -/
theorem WellKeyed.keys_eq (h : WellKeyed s) :
    s.newestFirst.map Prod.fst = s.listed.map fun e => encodeKey e.1 e.2 := by
  rw [listed, list, List.map_map, List.map_map]
  exact List.map_congr_left fun e he => h.key_eq he

/-- **The list is in order**: greater heights come first, and greater formats of a height. -/
theorem pairwise_list (h : WellKeyed s) :
    s.list.Pairwise fun a b =>
      b.height < a.height ∨ b.height = a.height ∧ b.format < a.format := by
  rw [list, List.pairwise_map]
  refine List.Pairwise.imp_of_mem ?_ (pairwise_traverse s.db _ false)
  intro a b ha hb hbefore
  have hlt : b.1 < a.1 := (before_false _ _).mp hbefore
  rw [h.key_eq ha, h.key_eq hb] at hlt
  exact encodeKey_lt_iff.mp hlt

/-- The greatest heights come first. -/
theorem WellKeyed.pairwise_listed (h : WellKeyed s) :
    s.listed.Pairwise fun a b => b.1.toNat ≤ a.1.toNat := by
  refine List.pairwise_map.mpr ((pairwise_list h).imp ?_)
  rintro a b (hlt | ⟨heq, -⟩)
  · exact (UInt64.lt_iff_toNat_lt.mp hlt).le
  · exact (congrArg UInt64.toNat heq).le

/-- When all that goes from the database are the snapshots of some heights, the list is filtered. -/
theorem list_eq_filter {p : UInt64 → Prop} [DecidablePred p]
    (hlookup : ∀ e ∈ s.newestFirst, s'.db.lookup e.1 = some e.2 ↔ p e.2.height)
    (hof : ∀ k snapshot, s'.db.lookup k = some snapshot → s.db.lookup k = some snapshot) :
    s'.list = s.list.filter fun snapshot => p snapshot.height := by
  have hfirst : s'.newestFirst = s.newestFirst.filter fun e => p e.2.height := by
    refine eq_of_pairwise_of_asymm (R := fun a b => Before false a.1 b.1) Before.asymm
      (pairwise_traverse s'.db _ false) ((pairwise_traverse s.db _ false).filter _) ?_
    rintro ⟨k, snapshot⟩
    rw [List.mem_filter, decide_eq_true_eq]
    constructor
    · intro h
      obtain ⟨hdomain, hentry⟩ := mem_traverse.mp h
      have hlook := mem_entries_iff.mp hentry
      have hmem : (k, snapshot) ∈ s.newestFirst :=
        mem_traverse.mpr ⟨hdomain, mem_entries_iff.mpr (hof k snapshot hlook)⟩
      exact ⟨hmem, (hlookup _ hmem).mp hlook⟩
    · rintro ⟨hmem, hp⟩
      exact mem_traverse.mpr ⟨(mem_traverse.mp hmem).1,
        mem_entries_iff.mpr ((hlookup _ hmem).mpr hp)⟩
  rw [list, list, hfirst, List.filter_map]
  rfl

/-! ### The loop over the snapshots -/

/-- The store after the given snapshots were deleted. -/
def deleteAll (s : SnapshotStore) : List (UInt64 × UInt32) → SnapshotStore
  | [] => s
  | e :: l => deleteAll { s with
      db := s.db.erase (encodeKey e.1 e.2)
      fs := s.fs.removeAll (pathSnapshot s.dir e.1 e.2) } l

@[simp] theorem dir_deleteAll (s : SnapshotStore) (l : List (UInt64 × UInt32)) :
    (s.deleteAll l).dir = s.dir := by
  induction l generalizing s with
  | nil => rfl
  | cons e l ih => exact ih _

/-- What is left of the metadata. -/
theorem lookup_deleteAll (s : SnapshotStore) (l : List (UInt64 × UInt32)) (k : Bytes) :
    (s.deleteAll l).db.lookup k =
      if ∃ e ∈ l, encodeKey e.1 e.2 = k then none else s.db.lookup k := by
  induction l generalizing s with
  | nil => simp [deleteAll]
  | cons e l ih =>
    rw [deleteAll, ih, lookup_erase_ite]
    simp only [List.exists_mem_cons_iff]
    by_cases hl : ∃ e ∈ l, encodeKey e.1 e.2 = k
    · rw [if_pos hl, if_pos (.inr hl)]
    · by_cases he : encodeKey e.1 e.2 = k
      · rw [if_neg hl, if_pos he.symm, if_pos (.inl he)]
      · rw [if_neg hl, if_neg (Ne.symm he), if_neg (not_or.mpr ⟨he, hl⟩)]

/-- What is left of the files. -/
theorem mem_deleteAll {l : List (UInt64 × UInt32)} {path : Path} :
    (path ∈ (s.deleteAll l).fs.dirs ↔
      path ∈ s.fs.dirs ∧ ∀ e ∈ l, ¬IsUnder (pathSnapshot s.dir e.1 e.2) path) ∧
    (path ∈ (s.deleteAll l).fs.paths ↔
      path ∈ s.fs.paths ∧ ∀ e ∈ l, ¬IsUnder (pathSnapshot s.dir e.1 e.2) path) := by
  induction l generalizing s with
  | nil => simp [deleteAll]
  | cons e l ih =>
    rw [deleteAll, ih.1, ih.2, FileSystem.mem_dirs_removeAll, FileSystem.mem_paths_removeAll,
      List.forall_mem_cons, and_assoc, and_assoc]
    exact ⟨Iff.rfl, Iff.rfl⟩

/-- The map `skip` of `Prune` has the given heights. -/
structure Skips (skip : GoMap UInt64 Bool) (kept : Finset ℕ) : Prop where
  lookup_eq : ∀ height, skip.lookup height = if height.toNat ∈ kept then some true else none
  length_eq : skip.keys.length = kept.card

theorem skips_empty : Skips ∅ ∅ := ⟨fun _ => rfl, rfl⟩

theorem Skips.mem_iff (h : Skips skip kept) {height : UInt64} :
    height ∈ skip ↔ height.toNat ∈ kept := by
  rw [mem_iff_exists_lookup, h.lookup_eq]
  split_ifs with hmem
  · simp [hmem]
  · simp [hmem]

theorem Skips.insert (h : Skips skip kept) (height : UInt64) :
    Skips (skip.insert height true) (insert height.toNat kept) where
  lookup_eq height' := by
    have hmem : height'.toNat ∈ Insert.insert height.toNat kept ↔
        height' = height ∨ height'.toNat ∈ kept := by
      rw [Finset.mem_insert, UInt64.toNat_inj]
    rw [lookup_insert_ite, h.lookup_eq]
    by_cases heq : height' = height
    · rw [if_pos heq, if_pos (hmem.mpr (.inl heq))]
    · rw [if_neg heq]
      exact if_congr (hmem.trans (or_iff_right heq)).symm rfl rfl
  length_eq := by
    rw [AList.keys_insert, List.length_cons]
    by_cases hmem : height ∈ skip
    · rw [Finset.insert_eq_self.mpr (h.mem_iff.mp hmem), ← h.length_eq,
        List.length_erase_of_mem (AList.mem_keys.mp hmem)]
      exact Nat.succ_pred_eq_of_pos (List.length_pos_of_mem (AList.mem_keys.mp hmem))
    · rw [Finset.card_insert_of_notMem (fun hin => hmem (h.mem_iff.mpr hin)), ← h.length_eq,
        List.erase_of_not_mem (fun hin => hmem (AList.mem_keys.mpr hin))]

/-- The snapshots whose height is not among the greatest ones. -/
def gone (heights : Finset ℕ) (retain : UInt32) (l : List (UInt64 × UInt32)) :
    List (UInt64 × UInt32) :=
  l.filter fun e => ¬AmongGreatest heights retain.toNat e.1.toNat

section Loop

variable {retain : UInt32} {heights seen : Finset ℕ} {e : UInt64 × UInt32}
  {l : List (UInt64 × UInt32)} {skip : GoMap UInt64 Bool}

/-- **One round of the loop** retains a height exactly if it is among the greatest ones. -/
theorem Skips.retains_iff (hskip : Skips skip (seen.filter (AmongGreatest heights retain.toNat)))
    (hsub : seen ⊆ heights) {height : UInt64}
    (hseen : ∀ n ∈ heights, height.toNat < n → n ∈ seen) (hle : ∀ n ∈ seen, height.toNat ≤ n) :
    ((skip.lookup height).getD false = true ∨ UInt32.ofNat skip.keys.length < retain) ↔
      AmongGreatest heights retain.toNat height.toNat := by
  rw [amongGreatest_iff_of_seen hsub hseen hle]
  refine or_congr ?_ ?_
  · rw [hskip.lookup_eq]
    split_ifs with hmem
    · exact iff_of_true rfl hmem
    · exact iff_of_false Bool.false_ne_true hmem
  · -- no more than `retain` heights are kept, so that their number fits
    have hcard : (seen.filter (AmongGreatest heights retain.toNat)).card ≤ retain.toNat :=
      card_filter_amongGreatest_le hsub
    rw [UInt32.lt_iff_toNat_lt, hskip.length_eq,
      UInt32.toNat_ofNat_of_lt' (lt_of_le_of_lt hcard retain.toNat_lt)]

/-- **The loop of `Prune`** deletes the snapshots whose height is not among the greatest ones. -/
theorem outcome_pruneLoop (hidle : ∀ height, s.isSaving height = false)
    (hsorted : l.Pairwise fun a b => b.1.toNat ≤ a.1.toNat)
    (hheights : ∀ n, n ∈ heights ↔ n ∈ seen ∨ ∃ e ∈ l, e.1.toNat = n)
    (hle : ∀ n ∈ seen, ∀ e ∈ l, e.1.toNat ≤ n)
    (hskip : Skips skip (seen.filter (AmongGreatest heights retain.toNat)))
    (prunedHeights : GoMap UInt64 Bool) (pruned : UInt64) :
    ∃ prunedHeights', outcome (pruneLoop retain (l.map fun e => encodeKey e.1 e.2) skip
        prunedHeights pruned) s =
        (.ok (prunedHeights', pruned + UInt64.ofNat (gone heights retain l).length),
          s.deleteAll (gone heights retain l)) ∧
      ∀ height, height ∈ prunedHeights' ↔
        height ∈ prunedHeights ∨ ∃ e ∈ gone heights retain l, e.1 = height := by
  induction l generalizing s seen skip prunedHeights pruned with
  | nil => exact ⟨prunedHeights, by simp [pruneLoop, gone, deleteAll, outcome], by simp [gone]⟩
  | cons e l ih =>
    obtain ⟨hfirst, hrest⟩ := List.pairwise_cons.mp hsorted
    have hsub : seen ⊆ heights := fun n hn => (hheights n).mpr (.inl hn)
    have hseen : ∀ n ∈ heights, e.1.toNat < n → n ∈ seen := by
      intro n hn hlt
      rcases (hheights n).mp hn with hn | ⟨e', he', rfl⟩
      · exact hn
      · rcases List.mem_cons.mp he' with rfl | he'
        · exact absurd hlt (Nat.lt_irrefl _)
        · exact absurd hlt (Nat.not_lt_of_le (hfirst e' he'))
    have hretains := hskip.retains_iff hsub hseen fun n hn => hle n hn e List.mem_cons_self
    -- the height counts as seen from now on
    have hheights' : ∀ n, n ∈ heights ↔ n ∈ insert e.1.toNat seen ∨ ∃ e ∈ l, e.1.toNat = n := by
      intro n
      rw [hheights, List.exists_mem_cons_iff, Finset.mem_insert, eq_comm (a := n), or_left_comm,
        or_assoc]
    have hle' : ∀ n ∈ insert e.1.toNat seen, ∀ e ∈ l, e.1.toNat ≤ n := by
      intro n hn e' he'
      rcases Finset.mem_insert.mp hn with rfl | hn
      · exact hfirst e' he'
      · exact hle n hn e' (List.mem_cons_of_mem e he')
    rw [List.map_cons, pruneLoop, decodeKey_encodeKey]
    dsimp only
    by_cases hkept : AmongGreatest heights retain.toNat e.1.toNat
    · have hgone : gone heights retain (e :: l) = gone heights retain l :=
        List.filter_cons_of_neg (by simpa using hkept)
      rw [if_pos (hretains.mpr hkept), hgone]
      refine ih hidle hrest hheights' hle' ?_ prunedHeights pruned
      rw [Finset.filter_insert, if_pos hkept]
      exact hskip.insert e.1
    · have hgone : gone heights retain (e :: l) = e :: gone heights retain l :=
        List.filter_cons_of_pos (by simpa using hkept)
      rw [if_neg fun h => hkept (hretains.mp h), outcome_bind_ok (outcome_delete (hidle e.1) e.2),
        hgone]
      have hskip' : Skips skip ((insert e.1.toNat seen).filter
          (AmongGreatest heights retain.toNat)) := by
        rw [Finset.filter_insert, if_neg hkept]
        exact hskip
      obtain ⟨prunedHeights', hout, hmem⟩ := ih (s := { s with
          db := s.db.erase (encodeKey e.1 e.2)
          fs := s.fs.removeAll (pathSnapshot s.dir e.1 e.2) }) hidle hrest hheights' hle' hskip'
        (prunedHeights.insert e.1 true) (pruned + 1)
      refine ⟨prunedHeights', hout.trans ?_, fun height => ?_⟩
      · rw [List.length_cons, UInt64.ofNat_add, UInt64.add_comm (UInt64.ofNat _),
          ← UInt64.add_assoc]
        rfl
      · rw [hmem, AList.mem_insert, List.exists_mem_cons_iff, eq_comm (a := height),
          or_left_comm, or_assoc]

end Loop

/-! ### The loop over the heights -/

/-- The metadata stays. -/
theorem db_removeHeights (heights : List UInt64) (s : SnapshotStore) :
    (outcome (removeHeights heights) s).2.db = s.db := by
  induction heights generalizing s with
  | nil => rfl
  | cons height heights ih =>
    rw [removeHeights, outcome_bind_ok (outcome_get s)]
    cases s.fs.removeDir (pathHeight s.dir height) with
    | none => rfl
    | some fs => exact ih { s with fs }

/-- **When the directories can be removed**: each of them is there and empty, before the first one
is removed. -/
theorem exists_removeHeights_iff {heights : List UInt64} (hnodup : heights.Nodup) :
    (∃ s', outcome (removeHeights heights) s = (.ok (), s')) ↔
      ∀ height ∈ heights, s.fs.IsEmptyDir (pathHeight s.dir height) := by
  induction heights generalizing s with
  | nil => exact iff_of_true ⟨s, rfl⟩ (List.forall_mem_nil _)
  | cons height heights ih =>
    obtain ⟨hnotMem, hrest⟩ := List.nodup_cons.mp hnodup
    rw [removeHeights, outcome_bind_ok (outcome_get s), List.forall_mem_cons,
      ← FileSystem.exists_removeDir_iff]
    cases hremove : s.fs.removeDir (pathHeight s.dir height) with
    | none =>
      refine iff_of_false ?_ ?_
      · rintro ⟨s', h⟩
        cases h
      · rintro ⟨⟨fs', h⟩, -⟩
        cases h
    | some fs =>
      dsimp only
      rw [outcome_bind_ok (outcome_set s { s with fs }), ih hrest]
      have hothers : ∀ height' ∈ heights, fs.IsEmptyDir (pathHeight s.dir height') ↔
          s.fs.IsEmptyDir (pathHeight s.dir height') := by
        intro height' hmem
        refine FileSystem.isEmptyDir_of_removeDir hremove fun hunder => hnotMem ?_
        rwa [← eq_of_isUnder_pathHeight hunder]
      refine ⟨fun h => ⟨⟨fs, rfl⟩, fun height' hmem => (hothers height' hmem).mp ?_⟩,
        fun h height' hmem => (hothers height' hmem).mpr (h.2 height' hmem)⟩
      exact h height' hmem

/-! ### Prune -/

/-- The heights that are listed. -/
def heights (s : SnapshotStore) : Finset ℕ :=
  (s.list.map fun snapshot => snapshot.height.toNat).toFinset

/-- A height is among the `retain` greatest ones that are listed. -/
def Retained (s : SnapshotStore) (retain : UInt32) (height : UInt64) : Prop :=
  AmongGreatest s.heights retain.toNat height.toNat

instance instDecidableRetained (s : SnapshotStore) (retain : UInt32) (height : UInt64) :
    Decidable (s.Retained retain height) :=
  inferInstanceAs (Decidable (AmongGreatest s.heights retain.toNat height.toNat))

/-- A `Prune` succeeds, returns how many snapshots it has deleted, and leaves the snapshots of the
`retain` greatest heights. -/
def PrunesExactly (order : Traversal UInt64 Bool) (retain : UInt32) (s : SnapshotStore) : Prop :=
  ∃ pruned s', outcome (prune order retain) s = (.ok pruned, s') ∧
    pruned.toNat = (s.list.filter fun snapshot => ¬s.Retained retain snapshot.height).length ∧
    s'.list = s.list.filter fun snapshot => s.Retained retain snapshot.height

/-- The directory of every height that goes is there, and all that is in it belongs to snapshots
of the height that are listed. -/
def Removable (retain : UInt32) (s : SnapshotStore) : Prop :=
  ∀ snapshot ∈ s.list, ¬s.Retained retain snapshot.height →
    pathHeight s.dir snapshot.height ∈ s.fs.dirs ∧
    ∀ path ∈ s.fs.paths, IsUnder (pathHeight s.dir snapshot.height) path →
      path = pathHeight s.dir snapshot.height ∨ ∃ other ∈ s.list,
        other.height = snapshot.height ∧
        IsUnder (pathSnapshot s.dir other.height other.format) path

/-- The number of the snapshots that go fits in the `uint64` that counts them. -/
def CountFits (retain : UInt32) (s : SnapshotStore) : Prop :=
  (s.list.filter fun snapshot => ¬s.Retained retain snapshot.height).length < 2 ^ 64

section

variable {retain : UInt32}

/-- The snapshots that go, as `Prune` meets them. -/
theorem gone_listed (s : SnapshotStore) (retain : UInt32) :
    gone s.heights retain s.listed =
      (s.list.filter fun snapshot => ¬s.Retained retain snapshot.height).map
        fun snapshot => (snapshot.height, snapshot.format) := by
  rw [gone, listed, List.filter_map]
  rfl

/-- The snapshots that go. -/
theorem mem_gone_iff {e : UInt64 × UInt32} :
    e ∈ gone s.heights retain s.listed ↔ ∃ snapshot ∈ s.list,
      ¬s.Retained retain snapshot.height ∧ (snapshot.height, snapshot.format) = e := by
  rw [gone_listed, List.mem_map]
  simp only [List.mem_filter, decide_eq_true_eq, and_assoc]

/-- What the loop leaves of the list. -/
theorem WellKeyed.list_deleteAll (h : WellKeyed s) (retain : UInt32)
    (hdb : s'.db = (s.deleteAll (gone s.heights retain s.listed)).db) :
    s'.list = s.list.filter fun snapshot => s.Retained retain snapshot.height := by
  refine list_eq_filter ?_ ?_
  · intro e he
    have hkey := h.key_eq he
    have hlookup := mem_entries_iff.mp (mem_traverse.mp he).2
    rw [hdb, lookup_deleteAll, hlookup]
    split_ifs with hgone
    · obtain ⟨e', he', heq⟩ := hgone
      obtain ⟨snapshot, -, hnot, rfl⟩ := mem_gone_iff.mp he'
      obtain ⟨hheight, -⟩ := encodeKey_inj (heq.trans hkey)
      refine iff_of_false id fun hretained => hnot ?_
      rwa [← hheight] at hretained
    · refine iff_of_true rfl (not_not.mp fun hnot => hgone ?_)
      exact ⟨(e.2.height, e.2.format), mem_gone_iff.mpr ⟨e.2, List.mem_map_of_mem he, hnot, rfl⟩,
        hkey.symm⟩
  · intro k snapshot hk
    rw [hdb, lookup_deleteAll] at hk
    split_ifs at hk
    exact hk

/-- After the loop, the directory of a height that goes is empty if and only if nothing was in it
but what is listed. -/
theorem removable_iff (s : SnapshotStore) (retain : UInt32) :
    (∀ e ∈ gone s.heights retain s.listed,
      (s.deleteAll (gone s.heights retain s.listed)).fs.IsEmptyDir (pathHeight s.dir e.1)) ↔
      Removable retain s := by
  constructor
  · intro h snapshot hmem hnot
    obtain ⟨hdir, hempty⟩ := h _ (mem_gone_iff.mpr ⟨snapshot, hmem, hnot, rfl⟩)
    refine ⟨(mem_deleteAll.1.mp hdir).1, fun path hpath hunder => or_iff_not_imp_right.mpr ?_⟩
    intro hother
    refine hempty path (mem_deleteAll.2.mpr ⟨hpath, fun e he hin => hother ?_⟩) hunder
    obtain ⟨other, hlist, -, rfl⟩ := mem_gone_iff.mp he
    exact ⟨other, hlist, (eq_of_isUnder_of_isUnder hunder hin).symm, hin⟩
  · intro h e he
    obtain ⟨snapshot, hmem, hnot, rfl⟩ := mem_gone_iff.mp he
    obtain ⟨hdir, hin⟩ := h snapshot hmem hnot
    refine ⟨mem_deleteAll.1.mpr ⟨hdir, fun _ _ => not_isUnder_pathHeight⟩, ?_⟩
    intro path hpath hunder
    obtain ⟨hpath, hdeleted⟩ := mem_deleteAll.2.mp hpath
    refine (hin path hpath hunder).resolve_right ?_
    rintro ⟨other, hlist, hheight, hother⟩
    exact hdeleted _ (mem_gone_iff.mpr ⟨other, hlist, hheight ▸ hnot, rfl⟩) hother

variable (h : WellKeyed s) (hidle : ∀ height, s.isSaving height = false)
  (order : Traversal UInt64 Bool) (retain : UInt32)
include h hidle

/-- **What a `Prune` comes to**: the snapshots that go are deleted, and then the directories of
their heights are removed, each of them once. -/
theorem WellKeyed.outcome_prune :
    ∃ removed : List UInt64, removed.Nodup ∧
      (∀ height, height ∈ removed ↔ ∃ e ∈ gone s.heights retain s.listed, e.1 = height) ∧
      outcome (prune order retain) s = outcome (do
        removeHeights removed
        return UInt64.ofNat (gone s.heights retain s.listed).length)
        (s.deleteAll (gone s.heights retain s.listed)) := by
  have hheights : ∀ n, n ∈ s.heights ↔ n ∈ (∅ : Finset ℕ) ∨ ∃ e ∈ s.listed, e.1.toNat = n := by
    intro n
    simp [heights, listed]
  have hskip : Skips ∅ ((∅ : Finset ℕ).filter (AmongGreatest s.heights retain.toNat)) :=
    skips_empty
  obtain ⟨prunedHeights, hloop, hpruned⟩ := outcome_pruneLoop hidle h.pairwise_listed hheights
    (fun n hn => absurd hn (Finset.notMem_empty n)) hskip ∅ 0
  rw [← h.keys_eq, UInt64.zero_add] at hloop
  refine ⟨(order.visit prunedHeights).map Sigma.fst, order.nodup_visit prunedHeights, ?_, ?_⟩
  · intro height
    rw [((order.perm prunedHeights).map Sigma.fst).mem_iff]
    exact AList.mem_keys.symm.trans ((hpruned height).trans (or_iff_right (AList.notMem_empty _)))
  · rw [prune, outcome_bind_ok (outcome_get s), outcome_bind_ok hloop]

/-- **One `Prune`**, in a store with no `Save` under way. -/
theorem WellKeyed.prunesExactly_iff_removable :
    PrunesExactly order retain s ↔ Removable retain s ∧ CountFits retain s := by
  obtain ⟨removed, hnodup, hremoved, hprune⟩ := h.outcome_prune hidle order retain
  have hdirs : (∃ s', outcome (removeHeights removed)
      (s.deleteAll (gone s.heights retain s.listed)) = (.ok (), s')) ↔ Removable retain s := by
    rw [exists_removeHeights_iff hnodup, ← removable_iff, dir_deleteAll]
    constructor
    · exact fun h e he => h e.1 ((hremoved e.1).mpr ⟨e, he, rfl⟩)
    · intro h height hheight
      obtain ⟨e, he, rfl⟩ := (hremoved height).mp hheight
      exact h e he
  have hcount : (UInt64.ofNat (gone s.heights retain s.listed).length).toNat =
      (s.list.filter fun snapshot => ¬s.Retained retain snapshot.height).length ↔
      CountFits retain s := by
    rw [gone_listed, List.length_map, UInt64.toNat_ofNat', CountFits]
    exact ⟨fun heq => heq ▸ Nat.mod_lt _ (by decide), Nat.mod_eq_of_lt⟩
  rw [← hdirs, ← hcount, PrunesExactly, hprune]
  constructor
  · rintro ⟨pruned, s', hout, hpruned, -⟩
    rcases hremove : outcome (removeHeights removed)
      (s.deleteAll (gone s.heights retain s.listed)) with ⟨e | _, s₁⟩
    · rw [outcome_bind_error hremove] at hout
      cases hout
    · rw [outcome_bind_ok hremove] at hout
      cases hout
      exact ⟨⟨_, rfl⟩, hpruned⟩
  · rintro ⟨⟨s₁, hremove⟩, hpruned⟩
    refine ⟨_, s₁, outcome_bind_ok hremove, hpruned, h.list_deleteAll retain ?_⟩
    have hdb := db_removeHeights removed (s.deleteAll (gone s.heights retain s.listed))
    rwa [hremove] at hdb

end

/-! ### Runs -/

variable {s s' : SnapshotStore}

/-- Deletions keep `WellKeyed`. -/
theorem WellKeyed.shrinks (h : WellKeyed s) (hshrinks : Shrinks s s') : WellKeyed s' :=
  fun k snapshot hk => h k snapshot (hshrinks.lookup_of k snapshot hk)

/-- A `Save` that fails leaves the database, and one that succeeds puts its own snapshot there. -/
theorem WellKeyed.save (h : WellKeyed s) (sha256 : Bytes → Bytes) (faults : SaveFaults)
    (height : UInt64) (format : UInt32) (chunks : List ChunkBody) :
    WellKeyed (outcome (save sha256 faults height format chunks) s).2 := by
  rcases hsave : outcome (SnapshotStore.save sha256 faults height format chunks) s
    with ⟨e | snapshot, s'⟩
  · intro k snap hk
    rw [(save_error hsave).1] at hk
    exact h k snap hk
  · obtain ⟨-, hsnapshot, hdb, -⟩ := save_ok hsave
    intro k snap hk
    rw [hdb, lookup_insert_ite] at hk
    split_ifs at hk with hkey
    · cases hk
      rw [hkey, hsnapshot]
      rfl
    · exact h k snap hk

/-- Every call, whether it succeeds or fails, keeps the snapshots under their keys. -/
theorem WellKeyed.perform (h : WellKeyed s) (sha256 : Bytes → Bytes) (call : SnapshotCall) :
    WellKeyed (outcome (call.perform sha256) s).2 := by
  cases call with
  | save faults height format chunks =>
    rw [SnapshotCall.perform, snd_outcome_bind fun _ => readOnly_pure _]
    exact h.save sha256 faults height format chunks
  | delete height format => exact h.shrinks (shrinks_delete height format s)
  | prune order retain =>
    rw [SnapshotCall.perform, snd_outcome_bind fun _ => readOnly_pure _]
    exact h.shrinks (shrinks_prune order retain s)

/-- **When `Prune` works.** After any calls, whether they succeed or fail, from a store without
snapshots, and with no `Save` under way: a `Prune` returns without an error the number of the
snapshots that it has deleted, and the list has the snapshots of the `retain` greatest heights, if
and only if the directory of every height that goes is there, and has nothing in it but snapshots
that are listed (and the number that is to be returned fits in a `uint64`). -/
theorem prunesExactly_iff (sha256 : Bytes → Bytes) {s₀ : SnapshotStore} (hempty : s₀.db = ∅)
    (calls : List SnapshotCall)
    (hidle : ∀ height, isSaving (outcomes (SnapshotCall.perform sha256) calls s₀).2 height = false)
    (order : Traversal UInt64 Bool) (retain : UInt32) :
    let s := (outcomes (SnapshotCall.perform sha256) calls s₀).2
    PrunesExactly order retain s ↔ Removable retain s ∧ CountFits retain s := by
  intro s
  have hstart : WellKeyed s₀ := by
    intro k snapshot hk
    rw [hempty] at hk
    cases hk
  have hkeyed : WellKeyed s :=
    outcomes_invariant (fun call _ _ h => h.perform sha256 call) hstart
  exact hkeyed.prunesExactly_iff_removable hidle order retain

/-- Two heights are saved, the first of them in two formats. -/
def savedHeights : List SnapshotCall :=
  [.save { } 1 1 [{ reader := ⟨[[1]], .eof⟩ }], .save { } 1 2 [],
    .save { } 2 1 [{ reader := ⟨[[2]], .eof⟩ }]]

/-- The snapshots of the first height are pruned, although one of them has no chunks. -/
theorem prunesExactly_iff_of_savedHeights :
    PrunesExactly .listed 1 (outcomes (SnapshotCall.perform id) savedHeights fresh).2 := by
  refine (prunesExactly_iff id rfl savedHeights (fun _ => rfl) .listed 1).mpr ⟨?_, ?_⟩
  · unfold Removable
    decide +kernel
  · unfold CountFits
    decide +kernel

/-- A snapshot without chunks is saved, which makes no directory: a `Prune` that is to delete it
fails, when it has deleted it. -/
theorem prunesExactly_fails :
    ∃ s, outcome (SnapshotCall.perform id (.save { } 1 1 [])) fresh = (.ok (), s) ∧
      (∀ height, s.isSaving height = false) ∧
      (outcome (prune .listed 0) s).1 = .error (.removeDirectory 1) ∧
      ¬PrunesExactly .listed 0 s := by
  refine ⟨_, rfl, fun _ => rfl, rfl, ?_⟩
  rintro ⟨pruned, s', hout, -⟩
  cases hout

end SnapshotStore

end MelodiaStore
