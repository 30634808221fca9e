import Mathlib.Data.Finset.Card
import MelodiaStore.ValidateIterator
import MelodiaStore.View

/-!
# What the Validation of an Iterator Shows

The replay of `validateIterator`, described by the state of the store. It goes through the
live keys of the tracker's range in order, and its verdict compares them with the keys the
tracker has recorded. On the way it looks up versions, and sends an abort for each estimate
among them.

## Main results

* `validateIterator_sound`: an accepted tracker has recorded the first live keys of its range.
* `validateIterator_rejects_estimates_iff`: when an estimate that is read during validation
  always invalidates.
-/

namespace MelodiaStore

/-! ### The verdict of the replay -/

namespace IterationTracker

variable (tracker : IterationTracker)

/-- The verdict of the loop on the keys ahead, when `found` expected keys were met. -/
def verdict : ℕ → List Bytes → Bool
  | found, [] => decide (tracker.iteratedKeys.card ≤ found)
  | found, key :: keys =>
    if tracker.iteratedKeys.card = found then false
    else if key ∈ tracker.iteratedKeys then
      if key = tracker.earlyStopKey.getD [] then decide (tracker.iteratedKeys.card ≤ found + 1)
      else verdict (found + 1) keys
    else false

/-- How often the loop calls `Next`. -/
def rounds : ℕ → List Bytes → ℕ
  | _, [] => 0
  | found, key :: keys =>
    if tracker.iteratedKeys.card = found then 0
    else if key ∈ tracker.iteratedKeys then
      if key = tracker.earlyStopKey.getD [] then 0 else rounds (found + 1) keys + 1
    else 0

variable {tracker} {found : ℕ} {keys : List Bytes}

theorem rounds_le : tracker.rounds found keys ≤ keys.length := by
  fun_induction rounds tracker found keys <;> simp_all

/-- **When the verdict is `true`**: the keys up to the early stop key are expected, and they
are as many as are left. -/
theorem verdict_eq_true_iff (hfound : found ≤ tracker.iteratedKeys.card) :
    tracker.verdict found keys = true ↔
      (∀ k ∈ through (tracker.earlyStopKey.getD []) keys, k ∈ tracker.iteratedKeys) ∧
        found + (through (tracker.earlyStopKey.getD []) keys).length =
          tracker.iteratedKeys.card := by
  induction keys generalizing found with
  | nil =>
    simp only [verdict, through, decide_eq_true_eq, List.not_mem_nil, false_implies,
      implies_true, true_and, List.length_nil]
    omega
  | cons key keys ih =>
    rw [verdict, through]
    by_cases hcard : tracker.iteratedKeys.card = found
    · rw [if_pos hcard]
      split <;> simp [hcard]
    rw [if_neg hcard]
    by_cases hkey : key ∈ tracker.iteratedKeys
    · rw [if_pos hkey]
      by_cases hstop : key = tracker.earlyStopKey.getD []
      · rw [if_pos hstop, if_pos hstop]
        simp only [decide_eq_true_eq, List.mem_singleton, forall_eq, List.length_singleton]
        refine ⟨fun h => ⟨hkey, by omega⟩, fun h => by omega⟩
      · rw [if_neg hstop, if_neg hstop, ih (by omega)]
        simp only [List.mem_cons, forall_eq_or_imp, hkey, true_and, List.length_cons]
        refine and_congr_right fun _ => ?_
        omega
    · rw [if_neg hkey]
      split <;> simp [hkey]

/-- On distinct keys, the verdict is `true` when the keys up to the early stop key are the
expected ones. -/
theorem verdict_zero_eq_true_iff (hkeys : keys.Nodup) :
    tracker.verdict 0 keys = true ↔
      ∀ k, k ∈ through (tracker.earlyStopKey.getD []) keys ↔ k ∈ tracker.iteratedKeys := by
  have hnodup := hkeys.sublist (through_isPrefix (tracker.earlyStopKey.getD []) keys).sublist
  rw [verdict_eq_true_iff (Nat.zero_le _), Nat.zero_add, ← List.toFinset_card_of_nodup hnodup]
  constructor
  · rintro ⟨hsub, hcard⟩ k
    have heq := Finset.eq_of_subset_of_card_le
      (fun k hk => hsub k (List.mem_toFinset.mp hk)) hcard.ge
    rw [← heq, List.mem_toFinset]
  · intro h
    refine ⟨fun k hk => (h k).mp hk, congrArg Finset.card (Finset.ext fun k => ?_)⟩
    rw [List.mem_toFinset, h]

/-- A replay with verdict `true` ends on the early stop key, or else at the end. -/
theorem head?_drop_rounds (hfound : found ≤ tracker.iteratedKeys.card)
    (h : tracker.verdict found keys = true) :
    (keys.drop (tracker.rounds found keys)).head? =
      if tracker.earlyStopKey.getD [] ∈ keys then some (tracker.earlyStopKey.getD [])
      else none := by
  induction keys generalizing found with
  | nil => rfl
  | cons key keys ih =>
    rw [verdict] at h
    rw [rounds]
    split at h
    · cases h
    · next hcard =>
      rw [if_neg hcard]
      split at h
      · next hkey =>
        rw [if_pos hkey]
        split at h
        · next hstop => simp [hstop]
        · next hstop =>
          rw [if_neg hstop, List.drop_succ_cons, ih (by omega) h]
          have hiff : tracker.earlyStopKey.getD [] ∈ key :: keys ↔
              tracker.earlyStopKey.getD [] ∈ keys := by
            rw [List.mem_cons]
            exact or_iff_right fun he => hstop he.symm
          simp only [hiff]
      · cases h

end IterationTracker

/-- **The loop of the goroutine** computes the verdict on the keys of the entries ahead. -/
theorem consults_replay {σ : Type} {cb : Callbacks σ} {I : Set Bytes → σ → Prop}
    {bad : Bytes → Prop} {f : Bytes → Slice} {L : Bytes → Prop} {B : Bytes × Bytes → Prop}
    (hcb : MergeIterator.Serves cb I bad f L B) (tracker : IterationTracker) {fuel found : ℕ}
    {it : MergeIterator} (h : it.Within L B) (hfuel : (it.entries f).length < fuel) {R : Set Bytes}
    {s : σ} (hI : I R s) :
    Consults I bad (replay cb tracker fuel found it) s R
      (it.visits f (tracker.rounds found ((it.entries f).map Prod.fst)))
      (tracker.verdict found ((it.entries f).map Prod.fst)) := by
  induction fuel generalizing found it R s with
  | zero => omega
  | succ fuel ih =>
    have hvalid := MergeIterator.consults_valid hcb h hI
    rw [replay]
    cases hes : it.entries f with
    | nil =>
      rw [hes] at hvalid
      refine hvalid.bind_left fun s₁ hI₁ => (Consults.pure hI₁).congr rfl ?_
      rw [List.map_nil, IterationTracker.verdict, ← decide_not]
      exact decide_eq_decide.mpr (by omega)
    | cons e es =>
      rw [hes] at hvalid hfuel
      -- from here on the iterator has settled on `e`, and looks up nothing new there
      have hsub : (it.settled f).lookups f ⊆ it.lookups f := MergeIterator.lookups_settled
      obtain ⟨hrest, hw'⟩ := MergeIterator.entries_advance h hes
      rw [List.map_cons, IterationTracker.verdict, IterationTracker.rounds]
      by_cases hcard : tracker.iteratedKeys.card = found
      · have hnone : (tracker.iteratedKeys.card : ℤ) - found = 0 := by omega
        rw [if_pos hcard, if_pos hcard]
        refine hvalid.bind_left fun s₁ hI₁ => ?_
        simp only [List.isEmpty_cons, Bool.not_false, if_true, hnone]
        exact .pure hI₁
      have hsome : ¬ (tracker.iteratedKeys.card : ℤ) - found = 0 := by omega
      have hstop : bytesEqual (some e.1) tracker.earlyStopKey = true ↔
          e.1 = tracker.earlyStopKey.getD [] := bytesEqual_iff
      rw [if_neg hcard, if_neg hcard]
      by_cases hmem : e.1 ∈ tracker.iteratedKeys
      · rw [if_pos hmem, if_pos hmem]
        by_cases hkeyStop : e.1 = tracker.earlyStopKey.getD []
        · rw [if_pos hkeyStop, if_pos hkeyStop]
          refine (hvalid.bind fun s₁ hI₁ => ?_).congr (Set.union_eq_left.mpr hsub) rfl
          simp only [List.isEmpty_cons, Bool.not_false, if_true, hsome, if_false]
          refine (MergeIterator.consults_key_settled hcb h hes hI₁).bind_left fun s₂ hI₂ => ?_
          simp only [hmem, if_true, hstop.mpr hkeyStop]
          refine (Consults.pure hI₂).congr rfl ?_
          rw [← decide_not]
          exact decide_eq_decide.mpr (by omega)
        · rw [if_neg hkeyStop, if_neg hkeyStop]
          have hnotStop : ¬ bytesEqual (some e.1) tracker.earlyStopKey = true :=
            fun h => hkeyStop (hstop.mp h)
          let V :=
            (it.settled f).advance.visits f (tracker.rounds (found + 1) (es.map Prod.fst))
          have hunion : it.lookups f ∪ ((it.settled f).lookups f ∪
              ((it.settled f).lookups f ∪ V)) = it.lookups f ∪ V := by
            rw [← Set.union_assoc, ← Set.union_assoc, Set.union_eq_left.mpr hsub,
              Set.union_eq_left.mpr hsub]
          refine (hvalid.bind fun s₁ hI₁ => ?_).congr hunion rfl
          simp only [List.isEmpty_cons, Bool.not_false, if_true, hsome, if_false]
          refine (MergeIterator.consults_key_settled hcb h hes hI₁).bind fun s₂ hI₂ => ?_
          simp only [hmem, if_true, hnotStop]
          refine (MergeIterator.consults_next_settled hcb h hes hI₂).bind fun s₃ hI₃ => ?_
          have hlen : ((it.settled f).advance.entries f).length < fuel := by
            rw [hrest]
            simpa using hfuel
          have hloop : Consults I bad (replay cb tracker fuel (found + 1) _) s₃ _ _ _ :=
            ih hw' hlen hI₃
          rwa [hrest] at hloop
      · rw [if_neg hmem, if_neg hmem]
        refine (hvalid.bind fun s₁ hI₁ => ?_).congr (Set.union_eq_left.mpr hsub) rfl
        simp only [List.isEmpty_cons, Bool.not_false, if_true, hsome, if_false]
        refine (MergeIterator.consults_key_settled hcb h hes hI₁).bind_left fun s₂ hI₂ => ?_
        simp only [hmem, if_false]
        exact .pure hI₂

/-! ### The values a validation iterator serves -/

section Serves

variable {π : Type} [LawfulKVStore π] {s : Store π} {index : ℕ} {writeset : WriteSet}
  {R : Set Bytes} {st : Validation} {key : Bytes}

/-- The validation iterator would dereference `nil` at a key. -/
def Store.Missing {π : Type} (s : Store π) (index : ℕ) (writeset : WriteSet) (key : Bytes) : Prop :=
  writeset.lookup key = none ∧ ∀ latest, s.getLatestBeforeIndex index key ≠ .ok (some latest)

/-- The validation iterator would read an estimate at a key. -/
def Store.ReadsEstimate {π : Type} (s : Store π) (index : ℕ) (writeset : WriteSet) (key : Bytes) :
    Prop :=
  writeset.lookup key = none ∧
    ∃ latest, s.getLatestBeforeIndex index key = .ok (some latest) ∧ latest.isEstimate = true

/-- What holds of the goroutine's state once the keys `R` have been looked up: the cache has
their values, and one abort was sent for each of them that is an estimate. -/
structure Validation.Inv (s : Store π) (index : ℕ) (writeset : WriteSet) (R : Set Bytes)
    (st : Validation) : Prop where
  cached : ∀ k v, st.readCache.lookup k = some v → k ∈ R ∧ v = s.view index writeset k
  complete : ∀ k ∈ R, writeset.lookup k = none → k ∈ st.readCache
  present : ∀ k ∈ R, ¬ s.Missing index writeset k
  sent : ∃ estimates : List Bytes, estimates.Nodup ∧ estimates.length = st.sent.length ∧
    ∀ k, k ∈ estimates ↔ k ∈ R ∧ s.ReadsEstimate index writeset k

/-- The start. -/
theorem Validation.inv_start : Validation.Inv s index writeset ∅ ⟨∅, []⟩ where
  cached k v h := by cases h
  complete k h := h.elim
  present k h := h.elim
  sent := ⟨[], List.nodup_nil, rfl, fun k => by simp⟩

/-- Looking up a key that was cached, or is written, changes nothing. -/
theorem Validation.Inv.insert_of_written {v : Slice} (h : Validation.Inv s index writeset R st)
    (hw : writeset.lookup key = some v) : Validation.Inv s index writeset (R ∪ {key}) st where
  cached k v hk := ⟨.inl (h.cached k v hk).1, (h.cached k v hk).2⟩
  complete := by
    rintro k (hk | rfl) hnone
    · exact h.complete k hk hnone
    · rw [hw] at hnone
      cases hnone
  present := by
    rintro k (hk | rfl) hmiss
    · exact h.present k hk hmiss
    · cases hw.symm.trans hmiss.1
  sent := by
    obtain ⟨estimates, hnodup, hlen, hmem⟩ := h.sent
    refine ⟨estimates, hnodup, hlen, fun k => (hmem k).trans ⟨fun hk => ⟨.inl hk.1, hk.2⟩, ?_⟩⟩
    rintro ⟨hk | rfl, hest⟩
    · exact ⟨hk, hest⟩
    · cases hw.symm.trans hest.1

/-- A version that is read keeps the invariant. -/
theorem Validation.Inv.withVersion {val : ValueItem} (h : Validation.Inv s index writeset R st)
    (hw : writeset.lookup key = none) (hnew : key ∉ R)
    (hlatest : s.getLatestBeforeIndex index key = .ok (some val)) :
    Validation.Inv s index writeset (R ∪ {key}) (st.withVersion key val) where
  cached k v hk := by
    simp only [Validation.withVersion, lookup_insert_ite] at hk
    split at hk
    · next hkk =>
      subst hkk
      obtain rfl := Option.some.inj hk
      exact ⟨.inr rfl, by rw [Store.view, hw, Option.getD_none, Store.below, hlatest]⟩
    · exact ⟨.inl (h.cached k v hk).1, (h.cached k v hk).2⟩
  complete := by
    rintro k (hk | rfl) hnone
    · exact (AList.mem_insert _).mpr (.inr (h.complete k hk hnone))
    · exact (AList.mem_insert _).mpr (.inl rfl)
  present := by
    rintro k (hk | rfl) hmiss
    · exact h.present k hk hmiss
    · exact hmiss.2 val hlatest
  sent := by
    obtain ⟨estimates, hnodup, hlen, hmem⟩ := h.sent
    have hiff : s.ReadsEstimate index writeset key ↔ val.isEstimate = true := by
      constructor
      · rintro ⟨-, latest, hlatest', hest⟩
        cases hlatest.symm.trans hlatest'
        exact hest
      · exact fun hest => ⟨hw, val, hlatest, hest⟩
    cases hest : val.isEstimate with
    | true =>
      refine ⟨key :: estimates, ?_, ?_, fun k => ?_⟩
      · exact List.nodup_cons.mpr ⟨fun hk => hnew ((hmem key).mp hk).1, hnodup⟩
      · simp [Validation.withVersion, hest, hlen]
      · rw [List.mem_cons, hmem]
        constructor
        · rintro (rfl | hk)
          · exact ⟨.inr rfl, hiff.mpr hest⟩
          · exact ⟨.inl hk.1, hk.2⟩
        · rintro ⟨hk | rfl, hk'⟩
          · exact .inr ⟨hk, hk'⟩
          · exact .inl rfl
    | false =>
      refine ⟨estimates, hnodup, ?_, fun k => (hmem k).trans ⟨fun hk => ⟨.inl hk.1, hk.2⟩, ?_⟩⟩
      · simp [Validation.withVersion, hest, hlen]
      · rintro ⟨hk | rfl, hk'⟩
        · exact ⟨hk, hk'⟩
        · rw [hest] at hiff
          cases hiff.mp hk'

/-- **The validation iterator serves the view** of the tracker's write set, in which an
estimate has no value. -/
theorem serves_validation (L : Bytes → Prop) (B : Bytes × Bytes → Prop) :
    MergeIterator.Serves (Validation.callbacks (s.getLatestBeforeIndex index) writeset)
      (Validation.Inv s index writeset) (s.Missing index writeset) (s.view index writeset) L B where
  update := fun _ _ hI => .pure hI
  value := by
    rintro R st k - hI
    have hrun := Validation.run_value (s.getLatestBeforeIndex index) writeset k st
    cases hw : writeset.lookup k with
    | some v =>
      have hv : s.view index writeset k = v := by rw [Store.view, hw, Option.getD_some]
      rw [hw] at hrun
      rw [hv]
      exact .of_ok hrun (hI.insert_of_written hw)
    | none =>
      cases hc : st.readCache.lookup k with
      | some v =>
        obtain ⟨hR, rfl⟩ := hI.cached k v hc
        rw [hw, hc] at hrun
        refine .of_ok hrun ?_
        rwa [Set.union_eq_left.mpr (Set.singleton_subset_iff.mpr hR)]
      | none =>
        have hnew : k ∉ R := fun hk => AList.lookup_eq_none.mp hc (hI.complete k hk hw)
        rw [hw, hc] at hrun
        cases hl : s.getLatestBeforeIndex index k with
        | error e =>
          rw [hl] at hrun
          exact .of_error hrun ⟨k, rfl, hw, fun latest h => by cases hl.symm.trans h⟩
        | ok latest =>
          rw [hl] at hrun
          cases latest with
          | none =>
            exact .of_error hrun ⟨k, rfl, hw, fun latest h => by cases hl.symm.trans h⟩
          | some val =>
            have hv : s.view index writeset k = val.value := by
              rw [Store.view, hw, Option.getD_none, Store.below, hl]
            rw [hv]
            exact .of_ok hrun (hI.withVersion hw hnew hl)

/-! ### The keys of a replay -/

variable {tracker : IterationTracker} {it : MergeIterator} {k v : Bytes}

/-- A key of a tracker's range. -/
def IterationTracker.InRange (tracker : IterationTracker) (key : Bytes) : Prop :=
  key ≠ [] ∧ isKeyInDomain key tracker.startKey tracker.endKey = true

/-- A key of the range that has a value in the view of the tracker's write set over the
versions below the index over the parent store. -/
def Store.Live (s : Store π) (index : ℕ) (tracker : IterationTracker) (key : Bytes) : Prop :=
  tracker.InRange key ∧ s.view index tracker.writeset key ≠ none

/-- A key of the range that the tracker's write set or an earlier transaction has written. -/
def Store.InLayer {π : Type} (s : Store π) (index : ℕ) (tracker : IterationTracker)
    (key : Bytes) : Prop :=
  tracker.InRange key ∧ (key ∈ tracker.writeset ∨ ∃ i < index, key ∈ s.writesetKeys i)

/-- The merge iterator of the goroutine at its start. -/
structure Store.Replays (s : Store π) (index : ℕ) (tracker : IterationTracker)
    (it : MergeIterator) : Prop where
  ascending : it.ascending = tracker.ascending
  parent : KVStore.iterator s.parentStore tracker.startKey tracker.endKey tracker.ascending =
    .ok it.parent
  cache : it.cache = (s.validationItems index tracker).keysIn tracker.startKey tracker.endKey
    tracker.ascending

namespace Store.Replays

section

variable (h : s.Replays index tracker it)
include h

/-- The keys of the cache iterator. -/
theorem mem_cache {c : Bytes} : c ∈ it.cache ↔ s.InLayer index tracker c := by
  rw [h.cache, MemDB.mem_keysIn, Store.validationItems, mem_foldl_addKey,
    Store.mem_collectIteratorItems, ← AList.mem_keys]
  constructor
  · rintro ⟨hdom, ⟨hne, hk⟩ | ⟨hk, hne⟩⟩
    · exact ⟨⟨hne, hdom⟩, .inr hk⟩
    · exact ⟨⟨hne, hdom⟩, .inl hk⟩
  · rintro ⟨⟨hne, hdom⟩, hk | hk⟩
    · exact ⟨hdom, .inr ⟨hk, hne⟩⟩
    · exact ⟨hdom, .inl ⟨hne, hk⟩⟩

/-- The entries of the parent iterator. -/
theorem mem_parent :
    (k, v) ∈ it.parent ↔
      tracker.InRange k ∧ LawfulBasicKVStore.contents s.parentStore k = some v := by
  rw [LawfulKVStore.mem_iterator _ _ _ _ _ h.parent, IterationTracker.InRange]
  constructor
  · rintro ⟨hdom, hv⟩
    exact ⟨⟨(LawfulBasicKVStore.valid_of_contents _ _ _ hv).1, hdom⟩, hv⟩
  · rintro ⟨⟨-, hdom⟩, hv⟩
    exact ⟨hdom, hv⟩

theorem within : it.Within (· ∈ it.cache) (· ∈ it.parent) := by
  rw [MergeIterator.Within, h.ascending]
  refine layered_start h.parent ?_
  rw [h.cache]
  exact MemDB.pairwise_keysIn _ _ _ _

/-- The entries ahead are those of the view in the range. -/
theorem mem_entries (hs : Recorded s) :
    (k, v) ∈ it.entries (s.view index tracker.writeset) ↔
      tracker.InRange k ∧ s.view index tracker.writeset k = some v := by
  have hkeys : it.cache.Pairwise (Before tracker.ascending) := h.ascending ▸ h.within.keys_sorted
  rw [MergeIterator.entries, h.ascending]
  refine mem_overlay_iterator h.parent hkeys (fun c hc => (h.mem_cache.mp hc).1) ?_
  intro k hne hdom hk
  rw [h.mem_cache] at hk
  have hwritten : tracker.writeset.lookup k = none :=
    AList.lookup_eq_none.mpr fun hmem => hk ⟨⟨hne, hdom⟩, .inl hmem⟩
  rw [Store.view, hwritten, Option.getD_none]
  exact hs.below_eq fun i hi hmem => hk ⟨⟨hne, hdom⟩, .inr ⟨i, hi, hmem⟩⟩

/-- The keys ahead are the live keys, in order. -/
theorem mem_keys (hs : Recorded s) :
    k ∈ (it.entries (s.view index tracker.writeset)).map Prod.fst ↔ s.Live index tracker k := by
  rw [Store.Live, ← Option.isSome_iff_ne_none]
  exact mem_map_fst_iff (fun _ _ => h.mem_entries hs) k

/-- The keys come in order. -/
theorem pairwise_keys (f : Bytes → Slice) :
    ((it.entries f).map Prod.fst).Pairwise (Before tracker.ascending) := by
  rw [← h.ascending]
  exact List.pairwise_map.mpr (pairwise_overlay h.within.base_sorted h.within.keys_sorted)

/-- The goroutine runs the loop on the merge iterator. -/
theorem replayIterator_eq (hstart : tracker.startKey ≠ some []) (hstop : tracker.endKey ≠ some []) :
    s.replayIterator index tracker =
      replay (Validation.callbacks (s.getLatestBeforeIndex index) tracker.writeset) tracker
        (it.parent.length + it.cache.length + 1) 0 it := by
  have hitems : (s.validationItems index tracker).iterator tracker.startKey tracker.endKey
      tracker.ascending = .ok _ := MemDB.iterator_eq_ok.mpr ⟨hstart, hstop, rfl⟩
  obtain ⟨parent, cache, ascending⟩ := it
  obtain ⟨rfl, hparent, rfl⟩ := h
  rw [Store.replayIterator, hitems, hparent, MemDB.keysIn, List.length_map]
  rfl

/-- **The goroutine** computes the verdict on the live keys. -/
theorem consults (hstart : tracker.startKey ≠ some []) (hstop : tracker.endKey ≠ some []) :
    Consults (Validation.Inv s index tracker.writeset) (s.Missing index tracker.writeset)
      (s.replayIterator index tracker) ⟨∅, []⟩ ∅
      (it.visits (s.view index tracker.writeset)
        (tracker.rounds 0 ((it.entries (s.view index tracker.writeset)).map Prod.fst)))
      (tracker.verdict 0 ((it.entries (s.view index tracker.writeset)).map Prod.fst)) := by
  have hfuel : (it.entries (s.view index tracker.writeset)).length <
      it.parent.length + it.cache.length + 1 :=
    Nat.lt_succ_of_le (length_overlay_le h.within.base_sorted h.within.keys_sorted)
  rw [h.replayIterator_eq hstart hstop]
  exact consults_replay (serves_validation (· ∈ it.cache) (· ∈ it.parent)) tracker h.within hfuel
    Validation.inv_start

end

end Store.Replays

/-! ### Soundness -/

theorem Store.bounds_of_replayIterator {valid : Bool} {st' : Validation}
    (h : (s.replayIterator index tracker).run st = .ok valid st') :
    tracker.startKey ≠ some [] ∧ tracker.endKey ≠ some [] := by
  rw [Store.replayIterator, run_bind_eq_ok] at h
  obtain ⟨items, _, hitems, -⟩ := h
  have hitems := (run_ofExcept_eq_ok.mp hitems).1
  cases hdb : (s.validationItems index tracker).iterator tracker.startKey tracker.endKey
      tracker.ascending with
  | error e => rw [hdb] at hitems; cases hitems
  | ok l =>
    obtain ⟨hstart, hstop, -⟩ := MemDB.iterator_eq_ok.mp hdb
    exact ⟨hstart, hstop⟩

/-- The iterator can be made again. -/
theorem Store.exists_replays (s : Store π) (index : ℕ) (hstart : tracker.startKey ≠ some [])
    (hstop : tracker.endKey ≠ some []) : ∃ it, s.Replays index tracker it := by
  obtain ⟨parent, hparent⟩ := LawfulKVStore.exists_iterator s.parentStore tracker.startKey
    tracker.endKey tracker.ascending hstart hstop
  exact ⟨⟨parent, _, _⟩, rfl, hparent, rfl⟩

/-- **Validation of an iterator is sound.** When `validateIterator` returns `true` for a
tracker, the keys it has recorded are the first live keys of its range, in the order of the
iteration; and all of them, unless the iteration stopped early. -/
theorem validateIterator_sound {versionList : Bool} {parent : π} {s : Store π} {index : ℕ}
    {tracker : IterationTracker} (hs : Store.Reachable versionList parent s)
    (h : s.ValidateIterator index tracker true) :
    ∃ live : List Bytes, live.Pairwise (Before tracker.ascending) ∧
      (∀ k, k ∈ live ↔ s.Live index tracker k) ∧
      (∀ k, k ∈ live.take tracker.iteratedKeys.card ↔ k ∈ tracker.iteratedKeys) ∧
      (tracker.earlyStopKey = none → live.drop tracker.iteratedKeys.card = []) := by
  obtain ⟨st, hrun, -⟩ := Store.validateIterator_true_iff.mp h
  obtain ⟨hstart, hstop⟩ := Store.bounds_of_replayIterator hrun
  obtain ⟨it, hit⟩ := s.exists_replays index hstart hstop
  have hverdict := ((hit.consults hstart hstop).of_run hrun).1.symm
  have hsorted := hit.pairwise_keys (s.view index tracker.writeset)
  have hmem : ∀ k, k ∈ _ ↔ s.Live index tracker k := fun k => hit.mem_keys hs.recorded
  generalize (it.entries (s.view index tracker.writeset)).map Prod.fst = live at *
  have hiff := (IterationTracker.verdict_zero_eq_true_iff (hsorted.imp Before.ne)).mp hverdict
  have hcard := ((IterationTracker.verdict_eq_true_iff (Nat.zero_le _)).mp hverdict).2
  rw [Nat.zero_add] at hcard
  have htake :
      live.take tracker.iteratedKeys.card = through (tracker.earlyStopKey.getD []) live := by
    rw [← hcard]
    exact (List.prefix_iff_eq_take.mp (through_isPrefix _ live)).symm
  refine ⟨live, hsorted, hmem, fun k => by rw [htake, hiff], fun hnone => ?_⟩
  -- no key is empty, so nothing stops the replay before the end
  have hnil : [] ∉ live := fun hk => ((hmem []).mp hk).1.1 rfl
  rw [hnone, Option.getD_none, through_eq_self hnil] at hcard
  rw [← hcard, List.drop_length]

/-- A tracker left by an iterator that was stopped on its second key. Then the earlier
transaction is executed again, and deletes a later key. -/
theorem validateIterator_sound_run :
    ∃ (p : DbAdapter) (s s' : Store DbAdapter) (it : TrackedIterator)
      (m : Mvkv (Store DbAdapter)) (tracker : IterationTracker),
      (StoreOp.perform false 2 (.setWriteset 0 0 (AList.singleton [3] (some [5])))).run
        (newMultiVersionStore p) = .ok ⟨⟩ s ∧
      (do
        let it ← VersionIndexedStore.iterator none none true
        let (_, it) ← it.valid
        let it ← it.next
        let (_, it) ← it.key
        pure it).run (⟨newVersionIndexedStore 1 0 ⟨1, []⟩ 2, s⟩ : Mvkv (Store DbAdapter)) =
          .ok it m ∧
      m.store.iterateset = [tracker] ∧ tracker.iteratedKeys = {[1], [2]} ∧
      (StoreOp.perform false 2 (.setWriteset 0 1 (AList.singleton [4] none))).run s = .ok ⟨⟩ s' ∧
      ∃ live : List Bytes, live.Pairwise (Before tracker.ascending) ∧
        (∀ k, k ∈ live ↔ s'.Live 1 tracker k) ∧
        (∀ k, k ∈ live.take tracker.iteratedKeys.card ↔ k ∈ tracker.iteratedKeys) ∧
        (tracker.earlyStopKey = none → live.drop tracker.iteratedKeys.card = []) := by
  refine ⟨((DbAdapter.empty.insert [1] (by decide) [7]).insert [2] (by decide) [8]).insert [4]
    (by decide) [9], _, _, _, _, _, and_of_run rfl fun hrun => ⟨rfl, rfl, by decide,
    and_of_run rfl fun hrun' => ?_⟩⟩
  exact validateIterator_sound (.setWriteset 0 1 _ 2 (.setWriteset 0 0 _ 2 .new hrun) hrun')
    (Store.validateIterator_true_iff.mpr ⟨_, rfl, by decide⟩)

/-! ### Estimates during a replay -/

/-- The replay of a tracker ends at a live key. -/
def Store.StopsAt (s : Store π) (index : ℕ) (tracker : IterationTracker) (h : Bytes) : Prop :=
  tracker.earlyStopKey = some h ∧ s.Live index tracker h

/-- The live keys up to the end of the replay. -/
def Store.Replayed (s : Store π) (index : ℕ) (tracker : IterationTracker) (key : Bytes) : Prop :=
  s.Live index tracker key ∧ ∀ h, s.StopsAt index tracker h → ¬ Before tracker.ascending h key

/-- The keys of the layer that the replay comes by: those up to its end, and past it the
key right behind a hidden one, since `skipCacheDeletes` reads a value before it compares the
key with its limit. -/
def Store.Passed (s : Store π) (index : ℕ) (tracker : IterationTracker) (key : Bytes) : Prop :=
  s.InLayer index tracker key ∧ ∀ h, s.StopsAt index tracker h →
    ¬ Before tracker.ascending h key ∨
      ∃ c, s.InLayer index tracker c ∧ s.view index tracker.writeset c = none ∧
        LawfulBasicKVStore.contents s.parentStore c = none ∧ Before tracker.ascending c h ∧
        Before tracker.ascending c key ∧ ∀ c', s.InLayer index tracker c' →
          Before tracker.ascending c c' → ¬ Before tracker.ascending c' key

/-- The states in which the validation of a tracker may miss an estimate: with estimates
read as deletions, the replay meets the recorded keys, and it comes by exactly one estimate
and never by a key without a version. -/
structure Store.Deceived (s : Store π) (index : ℕ) (tracker : IterationTracker) : Prop where
  bounds : tracker.startKey ≠ some [] ∧ tracker.endKey ≠ some []
  agrees : ∀ k, s.Replayed index tracker k ↔ k ∈ tracker.iteratedKeys
  single : ∃! k, s.Passed index tracker k ∧ s.ReadsEstimate index tracker.writeset k
  present : ∀ k, s.Passed index tracker k → ¬ s.Missing index tracker.writeset k

namespace Store.Replays

section

variable (h : s.Replays index tracker it) {stop : Bytes}
include h

/-- The early stop key stops the replay where it is live; the empty key never is. -/
theorem stopsAt_iff (hs : Recorded s) :
    s.StopsAt index tracker stop ↔ stop = tracker.earlyStopKey.getD [] ∧
      tracker.earlyStopKey.getD [] ∈ (it.entries (s.view index tracker.writeset)).map Prod.fst := by
  rw [h.mem_keys hs, Store.StopsAt]
  cases hstop : tracker.earlyStopKey with
  | none =>
    simp only [reduceCtorEq, false_and, Option.getD_none, false_iff, not_and]
    exact fun _ hlive => hlive.1.1 rfl
  | some stop' =>
    simp only [Option.some.injEq, Option.getD_some]
    constructor
    · rintro ⟨rfl, hlive⟩
      exact ⟨rfl, hlive⟩
    · rintro ⟨rfl, hlive⟩
      exact ⟨rfl, hlive⟩

/-- The keys that are replayed. -/
theorem mem_through_keys (hs : Recorded s) :
    k ∈ through (tracker.earlyStopKey.getD [])
        ((it.entries (s.view index tracker.writeset)).map Prod.fst) ↔
      s.Replayed index tracker k := by
  rw [mem_through (h.pairwise_keys _), h.mem_keys hs, Store.Replayed]
  refine and_congr_right fun _ => ?_
  simp only [h.stopsAt_iff hs, and_imp, forall_eq, h.mem_keys hs]

/-- The verdict is `true` when the replayed keys are the recorded ones. -/
theorem verdict_iff (hs : Recorded s) :
    tracker.verdict 0 ((it.entries (s.view index tracker.writeset)).map Prod.fst) = true ↔
      ∀ k, s.Replayed index tracker k ↔ k ∈ tracker.iteratedKeys := by
  rw [IterationTracker.verdict_zero_eq_true_iff ((h.pairwise_keys _).imp Before.ne)]
  simp only [h.mem_through_keys hs]

/-- What is behind a hidden key, in terms of the state. -/
theorem behind_iff :
    Behind tracker.ascending (s.view index tracker.writeset) it.parent it.cache stop k ↔
      ∃ c, s.InLayer index tracker c ∧ s.view index tracker.writeset c = none ∧
        LawfulBasicKVStore.contents s.parentStore c = none ∧ Before tracker.ascending c stop ∧
        Before tracker.ascending c k ∧ ∀ c', s.InLayer index tracker c' →
          Before tracker.ascending c c' → ¬ Before tracker.ascending c' k := by
  have hout : ∀ c, s.InLayer index tracker c → ((∀ e ∈ it.parent, e.1 ≠ c) ↔
      LawfulBasicKVStore.contents s.parentStore c = none) := by
    intro c hc
    rw [Option.eq_none_iff_forall_ne_some]
    constructor
    · exact fun hne v hv => hne (c, v) (h.mem_parent.mpr ⟨hc.1, hv⟩) rfl
    · rintro hnone ⟨c', v⟩ he rfl
      exact hnone v (h.mem_parent.mp he).2
  unfold Behind
  simp only [h.mem_cache]
  refine exists_congr fun c => and_congr_right fun hc => and_congr_right fun _ => ?_
  rw [hout c hc]

/-- **What a replay with verdict `true` looks up**. -/
theorem mem_visits (hs : Recorded s)
    (hverdict : tracker.verdict 0 ((it.entries (s.view index tracker.writeset)).map Prod.fst) =
      true) :
    k ∈ it.visits (s.view index tracker.writeset)
        (tracker.rounds 0 ((it.entries (s.view index tracker.writeset)).map Prod.fst)) ↔
      s.Passed index tracker k := by
  have hhead := IterationTracker.head?_drop_rounds (Nat.zero_le _) hverdict
  have hrounds : tracker.rounds 0 ((it.entries (s.view index tracker.writeset)).map Prod.fst) ≤
      (it.entries (s.view index tracker.writeset)).length :=
    IterationTracker.rounds_le.trans_eq (List.length_map _)
  generalize tracker.rounds 0 _ = n at *
  have hstops : ∀ stop, s.StopsAt index tracker stop ↔
      ∃ e, ((it.entries (s.view index tracker.writeset)).drop n).head? = some e ∧ e.1 = stop := by
    intro stop
    rw [h.stopsAt_iff hs, ← Option.map_eq_some_iff, ← List.head?_map, List.map_drop, hhead]
    split
    · next hmem => simp only [hmem, and_true, Option.some.injEq, eq_comm]
    · next hmem => simp only [hmem, and_false, reduceCtorEq]
  rw [MergeIterator.lookedUp_visits h.within hrounds k, h.mem_cache, Store.Passed, h.ascending]
  refine and_congr_right fun _ => ?_
  simp only [hstops, Option.mem_def, h.behind_iff]
  constructor
  · rintro hlook stop ⟨e, he, rfl⟩
    exact hlook e he
  · exact fun hlook e he => hlook e.1 ⟨e, he, rfl⟩

end

end Store.Replays

/-- **When the validation of a tracker returns `true`**, without estimates in the way: the
verdict is `true`, and every key the replay comes by has a version. -/
theorem Store.Replays.validates_iff (h : s.Replays index tracker it) (hs : Recorded s)
    (hstart : tracker.startKey ≠ some []) (hstop : tracker.endKey ≠ some [])
    (hest : ∀ k, ¬ s.ReadsEstimate index tracker.writeset k) :
    (∀ valid, s.ValidateIterator index tracker valid ↔ valid = true) ↔
      tracker.verdict 0 ((it.entries (s.view index tracker.writeset)).map Prod.fst) = true ∧
        ∀ k, s.Passed index tracker k → ¬ s.Missing index tracker.writeset k := by
  constructor
  · intro hvalid
    obtain ⟨st, hrun, -⟩ := Store.validateIterator_true_iff.mp ((hvalid true).mpr rfl)
    obtain ⟨hverdict, hinv⟩ := (h.consults hstart hstop).of_run hrun
    exact ⟨hverdict.symm, fun k hk => hinv.present k
      (.inr ((h.mem_visits hs hverdict.symm).mpr hk))⟩
  · rintro ⟨hverdict, hpresent⟩ valid
    obtain ⟨st, hrun, hinv⟩ := (h.consults hstart hstop).exists_run fun k hk =>
      hpresent k ((h.mem_visits hs hverdict).mp hk)
    rw [hverdict] at hrun
    have hsent : st.sent = [] := by
      obtain ⟨estimates, -, hlen, hmem⟩ := hinv.sent
      rw [List.eq_nil_iff_forall_not_mem.mpr fun k hk => hest k ((hmem k).mp hk).2] at hlen
      exact List.length_eq_zero_iff.mp hlen.symm
    rw [Store.ValidateIterator, Store.sends, hrun]
    simp only [hsent, List.map_nil, List.nil_append]
    exact Race.canReturn_verdict_iff

/-- One abort was sent when one estimate was read. -/
theorem Validation.Inv.length_sent_eq_one_iff (h : Validation.Inv s index writeset R st) :
    st.sent.length = 1 ↔ ∃! k, k ∈ R ∧ s.ReadsEstimate index writeset k := by
  obtain ⟨estimates, hnodup, hlen, hmem⟩ := h.sent
  simp only [← hmem, ← hlen]
  rw [List.length_eq_one_iff]
  constructor
  · rintro ⟨k, rfl⟩
    exact ⟨k, List.mem_singleton_self k, fun k' hk' => List.mem_singleton.mp hk'⟩
  · rintro ⟨k, hk, hunique⟩
    refine ⟨k, List.perm_singleton.mp ((List.perm_ext_iff_of_nodup hnodup
      (List.nodup_singleton k)).mpr fun k' => ?_)⟩
    rw [List.mem_singleton]
    exact ⟨hunique k', fun hk' => hk' ▸ hk⟩

/-- **The validation of a tracker can return `true` although it has read an estimate** in
exactly these states. -/
theorem Store.deceived_iff (hs : Recorded s) :
    s.Deceived index tracker ↔
      (∃ a, .abort a ∈ s.sends index tracker) ∧ s.ValidateIterator index tracker true := by
  rw [Store.abort_and_validateIterator_true_iff]
  constructor
  · rintro ⟨⟨hstart, hstop⟩, hagrees, hsingle, hpresent⟩
    obtain ⟨it, hit⟩ := s.exists_replays index hstart hstop
    have hverdict := (hit.verdict_iff hs).mpr hagrees
    obtain ⟨st, hrun, hinv⟩ := (hit.consults hstart hstop).exists_run fun k hk =>
      hpresent k ((hit.mem_visits hs hverdict).mp hk)
    rw [hverdict] at hrun
    refine ⟨st, hrun, hinv.length_sent_eq_one_iff.mpr ?_⟩
    simpa only [Set.empty_union, hit.mem_visits hs hverdict] using hsingle
  · rintro ⟨st, hrun, hone⟩
    obtain ⟨hstart, hstop⟩ := Store.bounds_of_replayIterator hrun
    obtain ⟨it, hit⟩ := s.exists_replays index hstart hstop
    obtain ⟨hverdict, hinv⟩ := (hit.consults hstart hstop).of_run hrun
    have hvisits : ∀ k, _ ↔ s.Passed index tracker k := fun k => hit.mem_visits hs hverdict.symm
    have hsingle := hinv.length_sent_eq_one_iff.mp hone
    simp only [Set.empty_union, hvisits] at hsingle
    exact ⟨⟨hstart, hstop⟩, (hit.verdict_iff hs).mp hverdict.symm, hsingle,
      fun k hk => hinv.present k (.inr ((hvisits k).mpr hk))⟩

/-- **When an estimate that is read during validation always invalidates**: the caller may
return `true` all the same exactly in the states that `Deceived` describes. -/
theorem validateIterator_rejects_estimates_iff {versionList : Bool} {parent : π} {s : Store π}
    (hs : Store.Reachable versionList parent s) (index : ℕ) (tracker : IterationTracker) :
    ((∃ a, .abort a ∈ s.sends index tracker) → ¬ s.ValidateIterator index tracker true) ↔
      ¬ s.Deceived index tracker := by
  rw [Store.deceived_iff hs.recorded, not_and]

/-- At a state with two estimates, and a tracker that has recorded the key of one of them. -/
theorem validateIterator_rejects_estimates_iff_run :
    ∃ (s₁ s : Store DbAdapter) (tracker : IterationTracker),
      (StoreOp.perform false 2 (.setWriteset 0 0 ((AList.singleton [1] none).insert [3]
        (some [5])))).run (newMultiVersionStore DbAdapter.empty) = .ok ⟨⟩ s₁ ∧
      (StoreOp.perform false 2 (.invalidateWriteset 0 0)).run s₁ = .ok ⟨⟩ s ∧
      tracker = (newIterationTracker none none true ∅).addKey [3] ∧
      (((∃ a, .abort a ∈ s.sends 1 tracker) → ¬ s.ValidateIterator 1 tracker true) ↔
        ¬ s.Deceived 1 tracker) := by
  obtain ⟨s₁, s, hrun₁, hrun⟩ : ∃ s₁ s, (StoreOp.perform false 2 (.setWriteset 0 0
      ((AList.singleton [1] none).insert [3] (some [5])))).run
        (newMultiVersionStore DbAdapter.empty) = .ok ⟨⟩ s₁ ∧
      (StoreOp.perform false 2 (.invalidateWriteset 0 0)).run s₁ = .ok ⟨⟩ s := ⟨_, _, rfl, rfl⟩
  exact ⟨s₁, s, _, hrun₁, hrun, rfl, validateIterator_rejects_estimates_iff
    (.invalidateWriteset 0 0 2 (.setWriteset 0 0 _ 2 .new hrun₁) hrun) 1 _⟩

/-- An iterator over an empty range is exhausted at once. Then an earlier transaction writes
a key of the range and is invalidated: the validation sends an abort for the estimate, but
finds no live key, and its verdict is `true`. The caller may take the verdict first. -/
theorem validateIterator_misses_estimate :
    ∃ (it : TrackedIterator) (m : Mvkv (Store DbAdapter)) (tracker : IterationTracker)
      (s₁ s : Store DbAdapter),
      (do
        let it ← VersionIndexedStore.iterator none none true
        let (_, it) ← it.valid
        pure it).run (⟨newVersionIndexedStore 1 0 ⟨1, []⟩ 2, newMultiVersionStore DbAdapter.empty⟩ :
          Mvkv (Store DbAdapter)) = .ok it m ∧
      m.store.iterateset = [tracker] ∧
      (StoreOp.perform false 2 (.setWriteset 0 0 (AList.singleton [1] (some [5])))).run
        m.multiVersionStore = .ok ⟨⟩ s₁ ∧
      (StoreOp.perform false 2 (.invalidateWriteset 0 0)).run s₁ = .ok ⟨⟩ s ∧
      (∃ a, .abort a ∈ s.sends 1 tracker) ∧ s.ValidateIterator 1 tracker true :=
  ⟨_, _, _, _, _, rfl, rfl, rfl, rfl,
    Store.abort_and_validateIterator_true_iff.mpr ⟨_, rfl, rfl⟩⟩

end Serves

end MelodiaStore
