import MelodiaStore.SnapshotPrune

/-!
# The Order of the Snapshots

`List` and `GetLatest` of `snapshots/store.go` walk backwards over the keys of the snapshots.
A key is a byte, the height and the format, each as a word with its most significant byte first,
so the order of the keys is the order of the heights, and of the formats within a height. The
walk ends before the greatest key there is: a snapshot under that one is not met.

## Main results

* `SnapshotStore.listing_in_order`: it has them in strictly descending order, the newest first.
-/

namespace MelodiaStore

/-- The greatest height and format, at whose key the walks end. -/
def lastKey : UInt64 × UInt32 := (UInt64.ofNat (2 ^ 64 - 1), UInt32.ofNat (2 ^ 32 - 1))

/-- No key is below the first one. -/
theorem encodeKey_zero_le (height : UInt64) (format : UInt32) :
    encodeKey 0 0 ≤ encodeKey height format := by
  refine not_lt.mp fun h => ?_
  rcases encodeKey_lt_iff.mp h with hlt | ⟨-, hlt⟩
  · exact absurd (UInt64.lt_iff_toNat_lt.mp hlt) (Nat.not_lt_zero _)
  · exact absurd (UInt32.lt_iff_toNat_lt.mp hlt) (Nat.not_lt_zero _)

/-- All keys but the last one are below it. -/
theorem encodeKey_lt_last {height : UInt64} {format : UInt32} (h : (height, format) ≠ lastKey) :
    encodeKey height format < encodeKey lastKey.1 lastKey.2 := by
  have hheight : lastKey.1.toNat = 2 ^ 64 - 1 := rfl
  have hformat : lastKey.2.toNat = 2 ^ 32 - 1 := rfl
  have hlt := height.toNat_lt
  have hltf := format.toNat_lt
  rw [encodeKey_lt_iff, UInt64.lt_iff_toNat_lt, UInt32.lt_iff_toNat_lt, ← UInt64.toNat_inj]
  by_contra hnot
  have hlast : height.toNat = lastKey.1.toNat ∧ format.toNat = lastKey.2.toNat := by omega
  exact h (Prod.ext (UInt64.toNat_inj.mp hlast.1) (UInt32.toNat_inj.mp hlast.2))

namespace SnapshotStore

variable {s : SnapshotStore}

/-- **The list is complete**: it has the snapshots that are stored, and no others. -/
theorem mem_list_iff (h : WellKeyed s) (hlast : s.get lastKey.1 lastKey.2 = none)
    {snapshot : Snapshot} :
    snapshot ∈ s.list ↔ s.get snapshot.height snapshot.format = some snapshot := by
  rw [list, List.mem_map]
  constructor
  · rintro ⟨⟨k, snapshot⟩, hmem, rfl⟩
    have hkey := h.key_eq hmem
    rw [get, ← hkey]
    exact mem_entries_iff.mp (mem_traverse.mp hmem).2
  · intro hget
    have hne : (snapshot.height, snapshot.format) ≠ lastKey := by
      intro heq
      rw [← heq, hget] at hlast
      cases hlast
    refine ⟨(_, snapshot), mem_traverse.mpr ⟨?_, mem_entries_iff.mpr hget⟩, rfl⟩
    refine isKeyInDomain_iff.mpr ⟨encodeKey_zero_le _ _, fun e he => ?_⟩
    obtain rfl := Option.some.inj he
    exact encodeKey_lt_last hne

/-- **Listing snapshots.** Keys are decoded to what was encoded, are ordered as the pairs of a
height and a format, and no others are decoded. So for snapshots that do not use the last key,
the list has each of them once, in strictly descending order, and the latest is the first. -/
theorem listing_in_order :
    (∀ height format, decodeKey (encodeKey height format) = .ok (height, format)) ∧
    (∀ height format height' format', encodeKey height format < encodeKey height' format' ↔
      height < height' ∨ height = height' ∧ format < format') ∧
    (∀ k, (∃ e, decodeKey k = .ok e) ↔ ∃ height format, k = encodeKey height format) ∧
    ∀ s : SnapshotStore, WellKeyed s → s.get lastKey.1 lastKey.2 = none →
      (∀ snapshot, snapshot ∈ s.list ↔
        s.get snapshot.height snapshot.format = some snapshot) ∧
      s.list.Nodup ∧
      (s.list.Pairwise fun a b =>
        b.height < a.height ∨ b.height = a.height ∧ b.format < a.format) ∧
      s.getLatest = s.list.head? := by
  refine ⟨decodeKey_encodeKey, fun _ _ _ _ => encodeKey_lt_iff, fun k => ?_,
    fun s h hlast => ⟨fun _ => mem_list_iff h hlast, ?_, pairwise_list h, ?_⟩⟩
  · constructor
    · rintro ⟨⟨height, format⟩, hk⟩
      exact ⟨height, format, eq_encodeKey_of_decodeKey hk⟩
    · rintro ⟨height, format, rfl⟩
      exact ⟨_, decodeKey_encodeKey height format⟩
  · refine (pairwise_list h).imp ?_
    rintro a b (hlt | ⟨-, hlt⟩) rfl
    · exact absurd (UInt64.lt_iff_toNat_lt.mp hlt) (Nat.lt_irrefl _)
    · exact absurd (UInt32.lt_iff_toNat_lt.mp hlt) (Nat.lt_irrefl _)
  · rw [getLatest, list, List.head?_map]

/-- Adding a snapshot under its own key. -/
theorem WellKeyed.insert {s : SnapshotStore} (h : WellKeyed s) (snapshot : Snapshot) :
    WellKeyed { s with
      db := s.db.insert (encodeKey snapshot.height snapshot.format) snapshot } := by
  intro k snapshot' hk
  rw [lookup_insert_ite] at hk
  split_ifs at hk with hkey
  · obtain rfl := Option.some.inj hk
    exact hkey
  · exact h k snapshot' hk

/-- Three snapshots, of two heights and two formats. The last byte of the greater height is the
smaller one. -/
def threeSnapshots : SnapshotStore :=
  ⟨(((∅ : GoMap Bytes Snapshot).insert (encodeKey 256 1) ⟨256, 1, 0, [], []⟩).insert (encodeKey 5 2)
    ⟨5, 2, 0, [], []⟩).insert (encodeKey 256 2) ⟨256, 2, 0, [], []⟩, [], ∅, .empty⟩

/-- They are listed from the newest to the oldest. -/
theorem listing_in_order_of_three :
    threeSnapshots.list.map (fun snapshot => (snapshot.height, snapshot.format)) =
        [(256, 2), (256, 1), (5, 2)] ∧
      threeSnapshots.list.Nodup ∧
      (threeSnapshots.list.Pairwise fun a b =>
        b.height < a.height ∨ b.height = a.height ∧ b.format < a.format) ∧
      threeSnapshots.getLatest = some ⟨256, 2, 0, [], []⟩ := by
  have hnone : WellKeyed ⟨∅, [], ∅, .empty⟩ := fun k snapshot hk => by cases hk
  have hkeyed : WellKeyed threeSnapshots :=
    ((hnone.insert ⟨256, 1, 0, [], []⟩).insert ⟨5, 2, 0, [], []⟩).insert ⟨256, 2, 0, [], []⟩
  obtain ⟨-, hnodup, hordered, hlatest⟩ := listing_in_order.2.2.2 _ hkeyed (by decide)
  exact ⟨by decide +kernel, hnodup, hordered, hlatest.trans (by decide +kernel)⟩

end SnapshotStore

end MelodiaStore
