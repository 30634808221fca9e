import MelodiaStore.StoreSafety

/-!
# Who Sees an Estimated Write Set

`SetEstimatedWriteset` leaves an estimate under each key of a write set, so that later transactions
wait for the one that will write them. For a key that is new to the store it makes a slice of 10000
slots, whatever the number of transactions is. The write clamps its index to the last slot, and a
lookup from an index past the last slot finds nothing.

## Main results

* `Store.estimates_seen_iff`: two transactions estimate their write sets, over keys that are new to
  the store. The later transactions see exactly the estimates before them if and only if there are
  at most 10000 transactions, or only the last one has estimated the key.
* `Store.estimates_unseen`: with 10001 transactions the last one does not see an estimate of the
  first.
-/

namespace MelodiaStore

/-! ### The slice of an estimated key -/

/-- A slice of `estimatedSize` slots which holds the versions `f`, up to the last slot: clamped
writes go there, and no lookup sees it. -/
structure EstimatedSlice (f : ℕ → Option ValueItem) (item : MultiVersionValue) : Prop where
  fits_iff : ∀ j, item.fits j ↔ j < Store.estimatedSize
  slot_eq : ∀ n, n + 1 < Store.estimatedSize → item.slot n = f n

theorem estimatedSlice_new :
    EstimatedSlice (fun _ => none) (.list (newMultiVersionListItem Store.estimatedSize)) where
  fits_iff _ := MultiVersionValue.fits_newMultiVersionListItem
  slot_eq n _ := MultiVersionListItem.slot_newMultiVersionListItem Store.estimatedSize n

namespace EstimatedSlice

variable {f : ℕ → Option ValueItem} {item item' : MultiVersionValue}

/-- **The step lemma**: a write at any index, clamped or not. -/
theorem put (h : EstimatedSlice f item) {index : ℕ} {v : Option ValueItem}
    (hput : item.Put (item.clamp index) v item') :
    EstimatedSlice (Function.update f index v) item' := by
  refine ⟨fun j => (hput.fits_iff j).trans (h.fits_iff j), fun n hn => ?_⟩
  rw [hput.slot_eq, Function.update_apply]
  by_cases hindex : n = index
  · subst hindex
    have hfits : item.fits n := (h.fits_iff n).mpr (by omega)
    rw [if_pos rfl, if_pos (item.clamp_of_fits hfits).symm]
  · rw [if_neg hindex, if_neg (item.clamp_ne ((h.fits_iff (n + 1)).mpr hn) hindex)]
    exact h.slot_eq n hn

/-- A lookup sees the versions as long as its index is one of the slots. -/
theorem getLatestBeforeIndex (h : EstimatedSlice f item) (hf : ∀ n e, f n = some e → e.index = n)
    (j : ℕ) : item.getLatestBeforeIndex j =
      .ok (if j < Store.estimatedSize then latestBelow f j else none) := by
  by_cases hj : j < Store.estimatedSize
  · have hslot : ∀ n < j, item.slot n = f n := fun n hn => h.slot_eq n (by omega)
    rw [if_pos hj, MultiVersionValue.getLatestBeforeIndex_of_fits ((h.fits_iff j).mpr hj),
      latestBelow_congr hslot]
    intro n e hn he
    rw [hf n e ((hslot n hn).symm.trans he)]
    exact hn
  · have hnot : ¬item.fits j := (h.fits_iff j).not.mpr hj
    rw [if_neg hj]
    cases item with
    | nilValue => exact absurd ((h.fits_iff 0).mpr (by decide)) id
    | list m =>
      have hlen : j ≥ m.valueList.length := Nat.le_of_not_lt hnot
      rw [MultiVersionValue.getLatestBeforeIndex, MultiVersionListItem.getLatestBeforeIndex,
        if_pos hlen]
    | tree t => exact absurd trivial hnot

end EstimatedSlice

/-! ### Two estimated write sets -/

/-- A call of `SetEstimatedWriteset`. -/
structure EstimatedWrite where
  index : ℕ
  incarnation : ℤ
  writeset : WriteSet

namespace EstimatedWrite

/-- Perform the call. -/
def perform {π : Type} (a : EstimatedWrite) : EStateM Panic (Store π) PUnit :=
  Store.setEstimatedWriteset a.index a.incarnation a.writeset

/-- What the call adds to the versions of a key. -/
def apply (a : EstimatedWrite) (k : Bytes) (f : ℕ → Option ValueItem) : ℕ → Option ValueItem :=
  if k ∈ a.writeset then
    Function.update f a.index (some (newEstimateItem a.index a.incarnation))
  else f

/-- Two calls of different transactions can be exchanged. -/
theorem apply_apply {a b : EstimatedWrite} (hne : a.index ≠ b.index) (k : Bytes)
    (f : ℕ → Option ValueItem) : b.apply k (a.apply k f) = a.apply k (b.apply k f) := by
  rw [apply, apply, apply, apply]
  split_ifs
  · exact Function.update_comm hne _ _ _
  all_goals rfl

/-- The estimates of a key carry their places. -/
theorem eq_of_apply {a : EstimatedWrite} {k : Bytes} {f : ℕ → Option ValueItem}
    (hf : ∀ n e, f n = some e → e.index = n ∧ e.isEstimate = true) {n : ℕ} {e : ValueItem}
    (h : a.apply k f n = some e) : e.index = n ∧ e.isEstimate = true := by
  rw [apply] at h
  split at h
  · by_cases hn : n = a.index
    · rw [hn, Function.update_self] at h
      obtain rfl := Option.some.inj h
      exact ⟨hn.symm, rfl⟩
    · rw [Function.update_of_ne hn] at h
      exact hf n e h
  · exact hf n e h

end EstimatedWrite

/-- What a key is bound to whose versions are the estimates `f`. -/
def KeyEstimates (f : ℕ → Option ValueItem) : Option MultiVersionValue → Prop
  | none => f = fun _ => none
  | some item => EstimatedSlice f item

namespace Store

variable {π : Type} {s t : Store π} {a b : EstimatedWrite} {k : Bytes} {versionList : Bool}
  {calls : List VersionCall} {totalTask : ℕ}

/-- **A call** adds its estimate to the keys of its write set. -/
theorem keyEstimates_of_writeStep {f : ℕ → Option ValueItem}
    (hstep : WriteStep a.index (.list (newMultiVersionListItem estimatedSize))
      (sortStrings a.writeset.keys) (fun _ _ => newEstimateItem a.index a.incarnation) s t)
    (hk : k ∉ s.writesetKeys a.index) (h : KeyEstimates f (s.multiVersionMap.lookup k)) :
    KeyEstimates (a.apply k f) (t.multiVersionMap.lookup k) := by
  by_cases hmem : k ∈ a.writeset
  · have hkeys : k ∈ sortStrings a.writeset.keys := mem_sortStrings.mpr (AList.mem_keys.mp hmem)
    obtain ⟨item', hput, hnew⟩ := hstep.written k hkeys
    rw [EstimatedWrite.apply, if_pos hmem, hnew]
    cases hold : s.multiVersionMap.lookup k with
    | none =>
      rw [hold] at h hput
      obtain rfl := h
      exact estimatedSlice_new.put hput
    | some item =>
      rw [hold] at h hput
      exact EstimatedSlice.put h hput
  · have hkeys : k ∉ sortStrings a.writeset.keys := fun hk' =>
      hmem (AList.mem_keys.mpr (mem_sortStrings.mp hk'))
    rw [EstimatedWrite.apply, if_neg hmem, hstep.kept k hkeys hk]
    exact h

/-- The keys of both write sets are new to the store. -/
def NewKeys (s : Store π) (a b : EstimatedWrite) : Prop :=
  ∀ k, k ∈ a.writeset ∨ k ∈ b.writeset → s.multiVersionMap.lookup k = none

/-- A new key is not recorded for any transaction. -/
theorem not_mem_writesetKeys (h : Registers versionList calls s)
    (hk : s.multiVersionMap.lookup k = none) (i : ℕ) : k ∉ s.writesetKeys i :=
  fun hmem => (h.recorded i k hmem).1 ((h.absent_iff k).mp hk)

/-- **Both calls return**, one after the other, and leave their estimates. -/
theorem exists_perform_perform (h : Registers versionList calls s) (hne : a.index ≠ b.index)
    (hnew : s.NewKeys a b) :
    ∃ t u : Store π, a.perform.run s = .ok ⟨⟩ t ∧ b.perform.run t = .ok ⟨⟩ u ∧
      ∀ k, k ∈ a.writeset ∨ k ∈ b.writeset →
        KeyEstimates (b.apply k (a.apply k fun _ => none)) (u.multiVersionMap.lookup k) := by
  obtain ⟨t, ht⟩ : ∃ t, a.perform.run s = .ok ⟨⟩ t := by
    refine (exists_setEstimatedWriteset_iff (h.nodup a.index) (h.recordedFit a.index)).mpr ?_
    intro k hk item hitem
    rw [hnew k (.inl hk)] at hitem
    cases hitem
  have hstep := setEstimatedWriteset_ok (h.nodup a.index) ht
  have hkeys : t.writesetKeys b.index = s.writesetKeys b.index := by
    rw [hstep.writesetKeys_eq, if_neg hne.symm]
  have hnodup : (t.writesetKeys b.index).Nodup := hkeys ▸ h.nodup b.index
  have hfirst : ∀ k, k ∈ a.writeset ∨ k ∈ b.writeset →
      KeyEstimates (a.apply k fun _ => none) (t.multiVersionMap.lookup k) := fun k hk =>
    keyEstimates_of_writeStep hstep (not_mem_writesetKeys h (hnew k hk) a.index)
      (by rw [hnew k hk]; rfl)
  -- the keys that are recorded for the second transaction are not those of the first call
  have hrecorded : t.RecordedFit b.index := by
    intro k hk item' hitem'
    rw [hkeys] at hk
    have hnot : k ∉ sortStrings a.writeset.keys := fun hmem =>
      not_mem_writesetKeys h (hnew k (.inl (AList.mem_keys.mpr (mem_sortStrings.mp hmem))))
        b.index hk
    obtain ⟨item, hitem, hfits, -⟩ := hstep.exists_of_not_written hnot hitem'
    exact (hfits 0).mpr (h.recordedFit b.index k hk item hitem)
  obtain ⟨u, hu⟩ : ∃ u, b.perform.run t = .ok ⟨⟩ u := by
    refine (exists_setEstimatedWriteset_iff hnodup hrecorded).mpr ?_
    intro k hk item hitem
    have hslice := hfirst k (.inr hk)
    rw [hitem] at hslice
    exact (hslice.fits_iff 0).mpr (by decide)
  refine ⟨t, u, ht, hu, fun k hk => ?_⟩
  refine keyEstimates_of_writeStep (setEstimatedWriteset_ok hnodup hu) ?_ (hfirst k hk)
  rw [hkeys]
  exact not_mem_writesetKeys h (hnew k hk) b.index

/-! ### Visibility -/

/-- The greatest index below `j` of the calls that estimate the key. -/
def greatestIndex (a b : EstimatedWrite) (k : Bytes) (j : ℕ) : Option ℕ :=
  latestBelow (fun n => if n = a.index ∨ n = b.index ∧ k ∈ b.writeset then some n else none) j

/-- Under each key of `a`, every transaction sees the estimate with the greatest index below it, or
nothing when there is none. -/
def SeesEstimates (totalTask : ℕ) (a b : EstimatedWrite) (s : Store π) : Prop :=
  ∀ k ∈ a.writeset, ∀ j < totalTask, ∃ found, s.getLatestBeforeIndex j k = .ok found ∧
    found.map ValueItem.index = greatestIndex a b k j ∧ ∀ e ∈ found, e.isEstimate = true

/-- The two calls return in either order, and their estimates are seen. -/
def EstimatesSeen (s : Store π) (totalTask : ℕ) (a b : EstimatedWrite) : Prop :=
  (∃ t u : Store π, a.perform.run s = .ok ⟨⟩ t ∧ b.perform.run t = .ok ⟨⟩ u ∧
    u.SeesEstimates totalTask a b) ∧
  ∃ t u : Store π, b.perform.run s = .ok ⟨⟩ t ∧ a.perform.run t = .ok ⟨⟩ u ∧
    u.SeesEstimates totalTask a b

/-- The versions that both calls leave under a key of the first one. -/
def estimates (a b : EstimatedWrite) (k : Bytes) : ℕ → Option ValueItem :=
  b.apply k (a.apply k fun _ => none)

theorem of_estimates {n : ℕ} {e : ValueItem} (h : estimates a b k n = some e) :
    e.index = n ∧ e.isEstimate = true :=
  EstimatedWrite.eq_of_apply (fun _ _ => EstimatedWrite.eq_of_apply
    fun _ _ hnone => absurd hnone.symm (Option.some_ne_none _)) h

/-- Their indices. -/
theorem map_index_estimates (hk : k ∈ a.writeset) (n : ℕ) :
    (estimates a b k n).map ValueItem.index =
      if n = a.index ∨ n = b.index ∧ k ∈ b.writeset then some n else none := by
  rw [estimates, EstimatedWrite.apply, EstimatedWrite.apply, if_pos hk]
  by_cases hb : k ∈ b.writeset
  · rw [if_pos hb, Function.update_apply, Function.update_apply]
    by_cases hnb : n = b.index
    · rw [if_pos hnb, if_pos (.inr ⟨hnb, hb⟩), hnb]
      rfl
    · by_cases hna : n = a.index
      · rw [if_neg hnb, if_pos hna, if_pos (.inl hna), hna]
        rfl
      · rw [if_neg hnb, if_neg hna, if_neg (by tauto)]
        rfl
  · rw [if_neg hb, Function.update_apply]
    by_cases hna : n = a.index
    · rw [if_pos hna, if_pos (.inl hna), hna]
      rfl
    · rw [if_neg hna, if_neg (by tauto)]
      rfl

/-- What a lookup of an estimated key finds. -/
theorem getLatestBeforeIndex_of_estimates (hk : k ∈ a.writeset)
    (h : KeyEstimates (estimates a b k) (s.multiVersionMap.lookup k)) (j : ℕ) :
    s.getLatestBeforeIndex j k =
      .ok (if j < estimatedSize then latestBelow (estimates a b k) j else none) := by
  rw [getLatestBeforeIndex]
  cases hlook : s.multiVersionMap.lookup k with
  | none =>
    rw [hlook] at h
    have hnone := map_index_estimates (b := b) hk a.index
    rw [if_pos (.inl rfl), show estimates a b k = fun _ => none from h] at hnone
    cases hnone
  | some item =>
    rw [hlook] at h
    exact EstimatedSlice.getLatestBeforeIndex h (fun n e he => (of_estimates he).1) j

/-- The estimates are seen from every index that is a slot of the slice, and from those which have
none to see. -/
theorem seesEstimates_iff
    (h : ∀ k ∈ a.writeset, KeyEstimates (estimates a b k) (s.multiVersionMap.lookup k)) :
    s.SeesEstimates totalTask a b ↔ ∀ k ∈ a.writeset, ∀ j < totalTask,
      j < estimatedSize ∨ greatestIndex a b k j = none := by
  refine forall₄_congr fun k hk j hj => ?_
  have hindex : (latestBelow (estimates a b k) j).map ValueItem.index = greatestIndex a b k j := by
    rw [map_latestBelow, greatestIndex]
    exact latestBelow_congr fun n _ => map_index_estimates hk n
  rw [getLatestBeforeIndex_of_estimates hk (h k hk) j]
  by_cases hslot : j < estimatedSize
  · rw [if_pos hslot]
    refine iff_of_true ⟨_, rfl, hindex, fun e he => ?_⟩ (.inl hslot)
    obtain ⟨n, -, hn, -⟩ := latestBelow_eq_some_iff.mp he
    exact (of_estimates hn).2
  · rw [if_neg hslot, or_iff_right hslot]
    constructor
    · rintro ⟨found, hfound, hmap, -⟩
      obtain rfl := Except.ok.inj hfound
      exact hmap.symm
    · intro hnone
      exact ⟨none, rfl, hnone.symm, fun e he => nomatch he⟩

/-- Which transactions have none to see. -/
theorem greatestIndex_eq_none_iff (ha : a.index < totalTask) (hb : b.index < totalTask)
    (hne : a.index ≠ b.index) :
    (∀ j < totalTask, j < estimatedSize ∨ greatestIndex a b k j = none) ↔
      totalTask ≤ estimatedSize ∨ a.index + 1 = totalTask ∧ k ∉ b.writeset := by
  simp only [greatestIndex, latestBelow_eq_none_iff]
  constructor
  · intro h
    by_cases htotal : totalTask ≤ estimatedSize
    · exact .inl htotal
    · -- the last transaction sees nothing, so no other one has estimated the key
      have hlast := (h (totalTask - 1) (by omega)).resolve_left (by omega)
      have hnot : ∀ n < totalTask - 1, ¬(n = a.index ∨ n = b.index ∧ k ∈ b.writeset) := by
        intro n hn htrue
        have hsome := hlast n hn
        rw [if_pos htrue] at hsome
        cases hsome
      have halast : a.index + 1 = totalTask := by
        by_contra hlt
        exact hnot a.index (by omega) (.inl rfl)
      exact .inr ⟨halast, fun hk => hnot b.index (by omega) (.inr ⟨rfl, hk⟩)⟩
  · rintro (htotal | ⟨halast, hk⟩) j hj
    · exact .inl (by omega)
    · refine .inr fun n hn => if_neg ?_
      rintro (rfl | ⟨-, hk'⟩)
      · omega
      · exact hk hk'

/-- **Estimated write sets** of two transactions, over keys that are new to a store that some calls
have led to, are seen by exactly the later transactions if and only if there are at most 10000
transactions, or only the last one has estimated the key. -/
theorem estimates_seen_iff [LawfulBasicKVStore π] (versionList : Bool) (totalTask : ℕ)
    (calls : List VersionCall) (hvalid : ∀ call ∈ calls, call.Valid totalTask) {parent : π}
    (hrun : (forM calls (VersionCall.perform versionList totalTask)).run
      (newMultiVersionStore parent) = .ok ⟨⟩ s) (ha : a.index < totalTask)
    (hb : b.index < totalTask) (hne : a.index ≠ b.index) (hnew : s.NewKeys a b) :
    s.EstimatesSeen totalTask a b ↔ ∀ k ∈ a.writeset,
      totalTask ≤ estimatedSize ∨ a.index + 1 = totalTask ∧ k ∉ b.writeset := by
  have hregisters : Registers versionList calls s :=
    forM_ok_induction (Registers versionList) (.new versionList parent)
      (fun pre call t t' hcall ht => (ht.perform (hvalid call hcall)).2 t') hrun
  obtain ⟨t, u, ht, hu, hkeys⟩ := exists_perform_perform hregisters hne hnew
  obtain ⟨t', u', ht', hu', hkeys'⟩ := exists_perform_perform hregisters hne.symm
    fun k hk => hnew k hk.symm
  have hiff : u.SeesEstimates totalTask a b ↔ _ := seesEstimates_iff fun k hk => hkeys k (.inl hk)
  have hiff' : u'.SeesEstimates totalTask a b ↔ _ := seesEstimates_iff fun k hk => by
    rw [estimates, EstimatedWrite.apply_apply hne]
    exact hkeys' k (.inr hk)
  have hcond : ∀ k ∈ a.writeset, _ := fun k _ =>
    greatestIndex_eq_none_iff (k := k) ha hb hne
  rw [← forall₂_congr hcond]
  constructor
  · rintro ⟨⟨t₁, u₁, ht₁, hu₁, hsees⟩, -⟩
    obtain ⟨-, rfl⟩ := EStateM.Result.ok.inj (ht.symm.trans ht₁)
    obtain ⟨-, rfl⟩ := EStateM.Result.ok.inj (hu.symm.trans hu₁)
    exact hiff.mp hsees
  · intro h
    exact ⟨⟨t, u, ht, hu, hiff.mpr h⟩, t', u', ht', hu', hiff'.mpr h⟩

/-- Two of three transactions estimate one key, in either order. -/
theorem estimates_seen_of_three :
    (newMultiVersionStore DbAdapter.empty).EstimatesSeen 3 ⟨0, 0, AList.singleton [1] none⟩
      ⟨1, 0, AList.singleton [1] none⟩ :=
  (estimates_seen_iff true 3 [] (List.forall_mem_nil _) rfl (by decide) (by decide) (by decide)
    fun _ _ => rfl).mpr fun _ _ => .inl (by decide)

/-- **The last of 10001 transactions sees no estimate**, though the first two have estimated the
key. -/
theorem estimates_unseen :
    let a : EstimatedWrite := ⟨0, 0, AList.singleton [1] none⟩
    let b : EstimatedWrite := ⟨1, 0, AList.singleton [1] none⟩
    ∃ t u : Store DbAdapter, a.perform.run (newMultiVersionStore .empty) = .ok ⟨⟩ t ∧
      b.perform.run t = .ok ⟨⟩ u ∧ u.getLatestBeforeIndex 10000 [1] = .ok none ∧
      greatestIndex a b [1] 10000 = some 1 := by
  intro a b
  have hmem : [1] ∈ a.writeset := List.mem_singleton_self _
  obtain ⟨t, u, ht, hu, hkeys⟩ := exists_perform_perform (a := a) (b := b)
    (Registers.new true DbAdapter.empty) Nat.zero_ne_one fun _ _ => rfl
  refine ⟨t, u, ht, hu, ?_, ?_⟩
  · rw [getLatestBeforeIndex_of_estimates hmem (hkeys [1] (.inl hmem)), if_neg (by decide)]
  · refine latestBelow_eq_some_iff.mpr ⟨1, by decide, if_pos (.inr ⟨rfl, hmem⟩), fun n hn _ => ?_⟩
    refine if_neg ?_
    rintro (rfl | ⟨rfl, -⟩)
    · exact absurd hn (by decide)
    · exact absurd hn (by decide)

end Store

end MelodiaStore
