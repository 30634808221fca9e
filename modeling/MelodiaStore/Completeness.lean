import MelodiaStore.Replay
import MelodiaStore.Transaction

/-!
# Completeness of the Validation of Iterators

Whether `validateIterator` accepts what an iterator has recorded when nothing has changed
below the transaction. The execution may contain any other calls, before, while and after
the iterator is used; while it is open nothing is written.

An iterator goes through the entries of the view. Its tracker has recorded the first of
them, and stops the replay at the last one recorded, or lets it go on to the end once the
iterator was seen to be exhausted (`IterationTracker.Follows`). The replay accepts exactly
that; but a tracker that was never touched records nothing, and does not stop the replay
before the first key.

## Main results

* `validateIterator_complete_iff`: the validation of an unchanged iterator returns `true` if
  and only if one of its methods was called or there is no key in its range, and every key
  the replay comes by has a version.
* `validateIterator_rejects_unused`: an iterator that was created and not used is rejected.
-/

namespace MelodiaStore

open MergeIterator.Within (settled)

section Completeness

variable {π : Type} [LawfulKVStore π] {s : Store π} {index j : ℕ}

/-! ### Iterators at an unchanged state -/

/-- An iterator in a layer outside of which its parent entries are the values below the
index. -/
def Grounded (s : Store π) (index : ℕ) (it : MergeIterator) : Prop :=
  ∃ L B, it.Within L B ∧ ∀ e, B e → ¬ L e.1 → ValidKey e.1 ∧ s.below index e.1 = some e.2

/-- The states of an execution while nothing changes below its index. -/
def Serving (s : Store π) (index : ℕ) (writeset : WriteSet) (m : Mvkv (Store π)) : Prop :=
  s.SameBelow index m.multiVersionStore ∧ Agrees s index m.store ∧ m.store.writeset = writeset

variable {writeset : WriteSet} {m m' : Mvkv (Store π)} {L : Bytes → Prop} {B : Bytes × Bytes → Prop}

theorem Serving.withIterateset (h : Serving s index writeset m) (iterateset : Iterateset) :
    Serving s index writeset { m with store := { m.store with iterateset := iterateset } } :=
  ⟨h.1, h.2.1.withIterateset iterateset, h.2.2⟩

/-- The view is served; a call may panic. -/
theorem serves_serving (s : Store π) (index : ℕ) (writeset : WriteSet)
    (hB : ∀ e, B e → ¬ L e.1 → ValidKey e.1 ∧ s.below index e.1 = some e.2) :
    MergeIterator.Serves (VersionIndexedStore.callbacks : Callbacks (Mvkv (Store π)))
      (fun _ => Serving s index writeset) (fun _ => True) (s.view index writeset) L B :=
  serves_execution (S := s.SameBelow index) (fun _ hs' => hs') writeset (fun _ => True)
    (fun _ _ => .inl trivial) hB

omit [LawfulKVStore π] in
/-- The callbacks leave the trackers alone. -/
theorem keeps_iterateset [KVStore π] (iterateset : Iterateset) :
    MergeIterator.Keeps (VersionIndexedStore.callbacks : Callbacks (Mvkv (Store π)))
      fun m => m.store.iterateset = iterateset where
  value k := by
    rintro ⟨store, s₁⟩ value ⟨store', s'⟩ rfl hrun
    obtain ⟨-, -, ⟨-, rfl⟩ | ⟨-, -, rfl⟩ | ⟨-, -, -, rfl⟩⟩ := run_get_eq_ok.mp hrun
    all_goals rfl
  updateReadSet k v := by
    rintro m a m' rfl hrun
    cases hrun
    rfl

/-- What a method that has returned did to an iterator and the trackers: it met the entry
ahead and moved past it or not, or else it found that there is none. -/
structure Moved (f : Bytes → Slice) (it it' : TrackedIterator) (trackers trackers' : Iterateset) :
    Prop where
  position : it'.position = it.position
  ahead : (it.iter.entries f = [] ∧ it'.iter.entries f = [] ∧
      trackers' = trackers.modify it.position (·.setEarlyStopKey none)) ∨
    ∃ e es, it.iter.entries f = e :: es ∧
      (it'.iter.entries f = e :: es ∨ it'.iter.entries f = es) ∧
      trackers' = trackers.modify it.position (·.addKey e.1)

/-- The state after a method of an iterator has returned. -/
structure AfterCall (s : Store π) (index : ℕ) (writeset : WriteSet) (it it' : TrackedIterator)
    (m m' : Mvkv (Store π)) : Prop where
  moved : Moved (s.view index writeset) it it' m.store.iterateset m'.store.iterateset
  grounded : Grounded s index it'.iter
  serving : Serving s index writeset m'

section Methods

variable (hm : Serving s index writeset m)
  (hB : ∀ e, B e → ¬ L e.1 → ValidKey e.1 ∧ s.below index e.1 = some e.2)

include hm hB

variable {it : TrackedIterator}

/-- `Key` of the merge iterator, with which all methods begin. -/
theorem of_run_key {it : MergeIterator} (h : it.Within L B) {r : Bytes × MergeIterator}
    (hrun : (it.key VersionIndexedStore.callbacks).run m = .ok r m') :
    ∃ e es, it.entries (s.view index writeset) = e :: es ∧
      r = (e.1, it.settled (s.view index writeset)) ∧ Serving s index writeset m' ∧
      m'.store.iterateset = m.store.iterateset ∧
      (it.settled (s.view index writeset)).Within L B ∧
      (it.settled (s.view index writeset)).entries (s.view index writeset) = e :: es := by
  have hcb := serves_serving s index writeset hB
  obtain ⟨e, es, hes⟩ := MergeIterator.exists_ahead_of_run (R := ∅) hcb h hm hrun
  obtain ⟨rfl, hm'⟩ := (MergeIterator.consults_key (R := ∅) hcb h hes hm).of_run hrun
  exact ⟨e, es, hes, rfl, hm',
    (MergeIterator.ensures_key (keeps_iterateset m.store.iterateset) it rfl hrun).2, settled h,
    (MergeIterator.entries_settled h).trans hes⟩

section

variable (h : it.iter.Within L B)
include h

/-- `Valid` keeps an iterator served. -/
theorem afterCall_valid {r : Bool × TrackedIterator} (hrun : it.valid.run m = .ok r m') :
    AfterCall s index writeset it r.2 m m' := by
  obtain ⟨⟨valid, iter⟩, m₁, hvalid, hrun⟩ := run_bind_eq_ok.mp hrun
  obtain ⟨hr, hm₁⟩ := (MergeIterator.consults_valid (R := ∅) (serves_serving s index writeset hB)
    h hm).of_run hvalid
  obtain ⟨rfl, rfl⟩ := Prod.mk.inj hr
  have htrackers := (MergeIterator.ensures_valid (keeps_iterateset m.store.iterateset) it.iter
    rfl hvalid).2
  have hsettled := MergeIterator.entries_settled (f := s.view index writeset) h
  have hw := settled (f := s.view index writeset) h
  cases hes : it.iter.entries (s.view index writeset) with
  | nil =>
    rw [hes] at hrun
    cases hrun
    refine ⟨⟨rfl, .inl ⟨hes, hsettled.trans hes, ?_⟩⟩, ⟨L, B, hw, hB⟩, hm₁.withIterateset _⟩
    rw [← htrackers]
  | cons e es =>
    rw [hes] at hrun
    obtain ⟨r, m₂, hkey, hrun⟩ := run_bind_eq_ok.mp hrun
    obtain ⟨e', es', hes', rfl, hm₂, htrackers₂, hw₂, hsettled₂⟩ := of_run_key hm₁ hB hw hkey
    cases hrun
    rw [hsettled, hes] at hes'
    cases hes'
    refine ⟨⟨rfl, .inr ⟨e, es, hes, .inl hsettled₂, ?_⟩⟩, ⟨L, B, hw₂, hB⟩, hm₂.withIterateset _⟩
    rw [← htrackers, ← htrackers₂]

/-- `Key` does. -/
theorem afterCall_key {r : Bytes × TrackedIterator} (hrun : it.key.run m = .ok r m') :
    AfterCall s index writeset it r.2 m m' := by
  obtain ⟨r, m₁, hkey, hrun⟩ := run_bind_eq_ok.mp hrun
  obtain ⟨e, es, hes, rfl, hm₁, htrackers, hw, hsettled⟩ := of_run_key hm hB h hkey
  cases hrun
  refine ⟨⟨rfl, .inr ⟨e, es, hes, .inl hsettled, ?_⟩⟩, ⟨L, B, hw, hB⟩, hm₁.withIterateset _⟩
  rw [← htrackers]

/-- `Value` does. -/
theorem afterCall_value {r : Slice × TrackedIterator} (hrun : it.value.run m = .ok r m') :
    AfterCall s index writeset it r.2 m m' := by
  obtain ⟨r, m₁, hkey, hrun⟩ := run_bind_eq_ok.mp hrun
  obtain ⟨e, es, hes, rfl, hm₁, htrackers, hw, hsettled⟩ := of_run_key hm hB h hkey
  obtain ⟨⟨val, iter⟩, m₂, hvalue, hrun⟩ := run_bind_eq_ok.mp hrun
  obtain ⟨hr, hm₂⟩ := (MergeIterator.consults_value (R := ∅) (serves_serving s index writeset hB)
    hw hsettled hm₁).of_run hvalue
  obtain ⟨-, rfl⟩ := Prod.mk.inj hr
  have htrackers₂ := (MergeIterator.ensures_value (keeps_iterateset m₁.store.iterateset)
    (Q := fun _ _ m => m.store.iterateset = m₁.store.iterateset)
    (fun _ _ _ _ => (keeps_iterateset _).updateReadSet _ _)
    (fun _ _ _ _ => (keeps_iterateset _).value _) _ rfl hvalue).2
  cases hrun
  refine ⟨⟨rfl, .inr ⟨e, es, hes, .inl ?_, ?_⟩⟩, ⟨L, B, ?_, hB⟩, hm₂.withIterateset _⟩
  · rw [MergeIterator.settled_settled]
    exact hsettled
  · rw [← htrackers, ← htrackers₂]
  · exact settled hw

/-- `Next` does. -/
theorem afterCall_next {it' : TrackedIterator} (hrun : it.next.run m = .ok it' m') :
    AfterCall s index writeset it it' m m' := by
  obtain ⟨r, m₁, hkey, hrun⟩ := run_bind_eq_ok.mp hrun
  obtain ⟨e, es, hes, rfl, hm₁, htrackers, hw, hsettled⟩ := of_run_key hm hB h hkey
  obtain ⟨⟨⟩, m₂, htrack, hrun⟩ := run_bind_eq_ok.mp hrun
  cases htrack
  obtain ⟨iter, m₃, hnext, hrun⟩ := run_bind_eq_ok.mp hrun
  cases hrun
  have hm₂ := hm₁.withIterateset (m₁.store.iterateset.modify it.position (·.addKey e.1))
  obtain ⟨rfl, hm₃⟩ := (MergeIterator.consults_next (R := ∅) (serves_serving s index writeset hB)
    hw hsettled hm₂).of_run hnext
  obtain ⟨hrest, hw'⟩ := MergeIterator.entries_advance hw hsettled
  have htrackers₂ := (MergeIterator.ensures_next (keeps_iterateset
    (m₁.store.iterateset.modify it.position (·.addKey e.1))) _ rfl hnext).2
  refine ⟨⟨rfl, .inr ⟨e, es, hes, .inr hrest, ?_⟩⟩, ⟨L, B, hw', hB⟩, hm₃⟩
  rw [htrackers₂, htrackers]

end

end Methods

/-! ### Executions at an unchanged state -/

/-- A call of a method of the `j`-th iterator. -/
def Call.On (j : ℕ) : Call → Prop
  | .valid i | .key i | .value i | .next i => i = j
  | _ => False

/-- A call that writes. -/
def Call.Writes : Call → Prop
  | .set _ _ | .delete _ => True
  | _ => False

namespace Transaction

/-- An execution that has met one state below its index. -/
structure Steady (s : Store π) (index : ℕ) (t : Transaction) : Prop where
  agrees : Agrees s index t.store
  grounded : ∀ it ∈ t.iterators, Grounded s index it.iter
  trackers : t.store.iterateset.length = t.iterators.length
  position : ∀ (i : ℕ) (it : TrackedIterator), t.iterators[i]? = some it → it.position = i

/-- What a call does to the iterators and their trackers: a method moves its own iterator,
and any other call at most adds one. -/
inductive Effect (s : Store π) (index : ℕ) (call : Call) (t t' : Transaction) : Prop
  | method (j : ℕ) (it it' : TrackedIterator) (on : call.On j)
      (mem : t.iterators[j]? = some it) (iterators : t'.iterators = t.iterators.set j it')
      (moved : Moved (s.view index t.store.writeset) it it' t.store.iterateset t'.store.iterateset)
      (writeset : t'.store.writeset = t.store.writeset)
  | other (on : ∀ j, ¬ call.On j) (iterators : t.iterators <+: t'.iterators)
      (trackers : t.store.iterateset <+: t'.store.iterateset)
      (writeset : ¬ call.Writes → t'.store.writeset = t.store.writeset)

variable {t t' : Transaction} {s₁ : Store π} {call : Call}

section

variable (h : Steady s index t) {obtained : List (Bytes × Slice)}
include h

theorem Steady.serving (hs : s.SameBelow index s₁) :
    Serving s index t.store.writeset ⟨t.store, s₁⟩ :=
  ⟨hs, h.agrees, rfl⟩

/-- A call that leaves the iterators alone. -/
theorem Steady.of_agrees {store : VersionIndexedStore} (hagrees : Agrees s index store)
    (htrackers : store.iterateset = t.store.iterateset) :
    Steady s index ⟨store, t.iterators, obtained⟩ :=
  ⟨hagrees, h.grounded, htrackers ▸ h.trackers, h.position⟩

/-- A call of a method. -/
theorem Steady.of_method (call : Call) (j : ℕ) (hj : call.On j) {it it' : TrackedIterator}
    (hit : t.iterators[j]? = some it) {m : Mvkv (Store π)}
    (hafter : AfterCall s index t.store.writeset it it' ⟨t.store, s₁⟩ m) :
    Steady s index ⟨m.store, t.iterators.set j it', obtained⟩ ∧
      Effect s index call t ⟨m.store, t.iterators.set j it', obtained⟩ := by
  refine ⟨⟨hafter.serving.2.1, fun it₁ hit₁ => ?_, ?_, fun i it₁ hit₁ => ?_⟩,
    .method j it it' hj hit rfl hafter.moved hafter.serving.2.2⟩
  · rcases List.mem_or_eq_of_mem_set hit₁ with hit₁ | rfl
    · exact h.grounded it₁ hit₁
    · exact hafter.grounded
  · rw [List.length_set, ← h.trackers]
    rcases hafter.moved.ahead with ⟨-, -, htrackers⟩ | ⟨_, _, -, -, htrackers⟩
    · rw [htrackers, List.length_modify]
    · rw [htrackers, List.length_modify]
  · rw [List.getElem?_set] at hit₁
    split at hit₁
    · next hij =>
      split at hit₁
      · obtain rfl := Option.some.inj hit₁
        rw [hafter.moved.position, ← hij]
        exact h.position j it hit
      · cases hit₁
    · exact h.position i it₁ hit₁

/-- A new iterator is grounded. -/
theorem Steady.grounded_iterator (hs : Recorded s) (hsame : s.SameBelow index s₁)
    {start stop : Slice} {ascending : Bool} {parent : List (Bytes × Bytes)}
    (hparent : KVStore.iterator s₁.parentStore start stop ascending = .ok parent) :
    Grounded s index ⟨parent, (t.store.iteratorItems (s₁.collectIteratorItems
      t.store.transactionIndex)).keysIn start stop ascending, ascending⟩ := by
  rw [h.agrees.index_eq]
  refine ⟨_, _, layered_start hparent (MemDB.pairwise_keysIn _ _ _ _), fun e he hout => ?_⟩
  obtain ⟨hdom, hv⟩ := (LawfulKVStore.mem_iterator _ _ _ _ _ hparent e.1 e.2).mp he
  have hkey := LawfulBasicKVStore.valid_of_contents _ _ _ hv
  rw [MemDB.mem_keysIn, mem_iteratorItems] at hout
  refine ⟨hkey, ?_⟩
  rw [hs.below_eq fun i hi hmem => hout ⟨hdom, hkey.1, .inl ⟨i, hi,
    (hsame.writesetKeys i hi _).mpr hmem⟩⟩, ← hsame.parentStore]
  exact hv

/-- **The step lemma.** A call at a state that is the same below the index. -/
theorem Steady.perform (hs : Recorded s) (hsame : s.SameBelow index s₁)
    (hrun : t.perform s₁ call = some t') : Steady s index t' ∧ Effect s index call t t' := by
  have hground : ∀ {j : ℕ} {it : TrackedIterator}, t.iterators[j]? = some it →
      Grounded s index it.iter :=
    fun hit => h.grounded _ (List.mem_of_getElem? hit)
  cases performed_of_perform hrun with
  | get hget | has hget =>
    obtain ⟨-, -, hagrees, hw⟩ := h.agrees.of_run_get hsame hget
    have htrackers := (keeps_iterateset t.store.iterateset).value _ rfl hget
    exact ⟨h.of_agrees hagrees htrackers,
      .other (fun _ => id) List.prefix_rfl (by simp only [note, htrackers, List.prefix_rfl])
        fun _ => hw⟩
  | set hset | delete hset =>
    obtain ⟨hkey, rfl⟩ := run_set_eq_ok.mp hset
    exact ⟨h.of_agrees (h.agrees.withWrite hkey _) rfl,
      .other (fun _ => id) List.prefix_rfl List.prefix_rfl fun hw => absurd trivial hw⟩
  | iterator hit =>
    obtain ⟨items, parent, hitems, -, hparent, rfl, rfl⟩ := run_iterator_eq_ok.mp hit
    obtain rfl := Except.ok.inj hitems
    refine ⟨⟨h.agrees.withIterateset _, fun it hit => ?_, ?_, fun i it hit => ?_⟩,
      .other (fun _ => id) (List.prefix_append _ _) (List.prefix_append _ _) fun _ => rfl⟩
    · rcases List.mem_append.mp hit with hit | hit
      · exact h.grounded it hit
      · obtain rfl := List.mem_singleton.mp hit
        exact h.grounded_iterator hs hsame hparent
    · simp only [List.length_append, h.trackers, List.length_singleton]
    · replace hit : (t.iterators ++ [_])[i]? = some it := hit
      rw [List.getElem?_append] at hit
      split at hit
      · exact h.position i it hit
      · rw [List.getElem?_singleton] at hit
        split at hit
        · obtain rfl := Option.some.inj hit
          dsimp only
          rw [h.trackers]
          omega
        · cases hit
  | @valid j it r m hit hvalid =>
    obtain ⟨L, B, hw, hB⟩ := hground hit
    exact h.of_method (.valid j) j rfl hit (afterCall_valid (h.serving hsame) hB hw hvalid)
  | @key j it r m hit hkey =>
    obtain ⟨L, B, hw, hB⟩ := hground hit
    exact h.of_method (.key j) j rfl hit (afterCall_key (h.serving hsame) hB hw hkey)
  | @value j it r m hit hvalue =>
    obtain ⟨L, B, hw, hB⟩ := hground hit
    exact h.of_method (.value j) j rfl hit (afterCall_value (h.serving hsame) hB hw hvalue)
  | @next j it it' m hit hnext =>
    obtain ⟨L, B, hw, hB⟩ := hground hit
    exact h.of_method (.next j) j rfl hit (afterCall_next (h.serving hsame) hB hw hnext)

end

end Transaction

/-! ### What a tracker records -/

namespace IterationTracker

variable {tracker : IterationTracker} {keys : List Bytes} {n : ℕ} {key : Bytes}

/-- The tracker of an iteration through `keys` that has come to position `n` has recorded the
keys before it, and maybe the one there. -/
def Notes (tracker : IterationTracker) (keys : List Bytes) (n : ℕ) : Prop :=
  ∃ m, m ≤ keys.length ∧ (m = n ∨ m = n + 1) ∧
    ∀ k, k ∈ tracker.iteratedKeys ↔ k ∈ keys.take m

/-- The tracker has recorded the first keys, and stops a replay at the last of them, or else
it has recorded all keys. -/
def Follows (tracker : IterationTracker) (keys : List Bytes) : Prop :=
  ∃ m, (∀ k, k ∈ tracker.iteratedKeys ↔ k ∈ keys.take m) ∧
    (tracker.earlyStopKey = none ∧ keys.length ≤ m ∨
      0 < m ∧ m ≤ keys.length ∧ tracker.earlyStopKey = keys[m - 1]?)

/-- Recording the key at the position. -/
theorem Notes.addKey (h : tracker.Notes keys n) (hn : keys[n]? = some key) :
    (tracker.addKey key).Follows keys ∧ (tracker.addKey key).Notes keys n ∧
      (tracker.addKey key).Notes keys (n + 1) := by
  obtain ⟨m, -, hmn, hkeys⟩ := h
  have hlt : n < keys.length := (List.getElem?_eq_some_iff.mp hn).1
  have hnew : ∀ k, k ∈ (tracker.addKey key).iteratedKeys ↔ k ∈ keys.take (n + 1) := by
    intro k
    change k ∈ insert key tracker.iteratedKeys ↔ _
    rw [Finset.mem_insert, hkeys, List.take_add_one, hn, Option.toList_some, List.mem_append,
      List.mem_singleton]
    rcases hmn with rfl | rfl
    · exact or_comm
    · rw [List.take_add_one, hn, Option.toList_some, List.mem_append, List.mem_singleton]
      tauto
  refine ⟨⟨n + 1, hnew, .inr ⟨Nat.succ_pos n, hlt, ?_⟩⟩, ⟨n + 1, hlt, .inr rfl, hnew⟩,
    ⟨n + 1, hlt, .inl rfl, hnew⟩⟩
  rw [Nat.add_sub_cancel, hn]
  rfl

/-- Finding that there is no key left. -/
theorem Notes.setEarlyStopKey (h : tracker.Notes keys n) (hn : keys.length ≤ n) :
    (tracker.setEarlyStopKey none).Follows keys ∧
      (tracker.setEarlyStopKey none).Notes keys n := by
  obtain ⟨m, hm, hmn, hkeys⟩ := h
  exact ⟨⟨m, hkeys, .inl ⟨rfl, by omega⟩⟩, m, hm, hmn, hkeys⟩

/-- **A replay through the same keys accepts a tracker that has followed them.** -/
theorem Follows.verdict (h : tracker.Follows keys) (hkeys : keys.Nodup) (hne : [] ∉ keys) :
    tracker.verdict 0 keys = true := by
  obtain ⟨m, hmem, hstop⟩ := h
  rw [verdict_zero_eq_true_iff hkeys]
  intro k
  rw [hmem]
  rcases hstop with ⟨hnone, hm⟩ | ⟨hpos, hm, hstop⟩
  · rw [hnone, Option.getD_none, through_eq_self hne, List.take_of_length_le hm]
  · obtain ⟨m, rfl⟩ := Nat.exists_eq_succ_of_ne_zero (Nat.pos_iff_ne_zero.mp hpos)
    rw [hstop, Nat.succ_eq_add_one, Nat.add_sub_cancel, List.getElem?_eq_getElem hm,
      Option.getD_some, through_getElem hkeys hm]

/-- A tracker that has recorded nothing is accepted only if there are no keys. -/
theorem verdict_of_untouched (hkeys : tracker.iteratedKeys = ∅)
    (hstop : tracker.earlyStopKey = none) (hnodup : keys.Nodup) (hne : [] ∉ keys) :
    tracker.verdict 0 keys = true ↔ keys = [] := by
  rw [verdict_zero_eq_true_iff hnodup, hstop, Option.getD_none, through_eq_self hne, hkeys]
  simp only [Finset.notMem_empty, iff_false, List.eq_nil_iff_forall_not_mem]

end IterationTracker

/-! ### The iterator under observation -/

/-- Two trackers of one iterator. -/
structure IterationTracker.SameRange (tracker₀ tracker : IterationTracker) : Prop where
  startKey : tracker.startKey = tracker₀.startKey
  endKey : tracker.endKey = tracker₀.endKey
  ascending : tracker.ascending = tracker₀.ascending
  writeset : tracker.writeset = tracker₀.writeset

theorem getElem?_of_isPrefix {α : Type} {l₁ l₂ : List α} (h : l₁ <+: l₂) {a : α}
    (ha : l₁[j]? = some a) : l₂[j]? = some a := by
  obtain ⟨l, rfl⟩ := h
  rw [List.getElem?_append_left (List.getElem?_eq_some_iff.mp ha).1]
  exact ha

theorem Call.On.eq {call : Call} {i : ℕ} (hi : call.On i) (hj : call.On j) : i = j := by
  cases call with
  | valid _ | key _ | value _ | next _ => exact Eq.trans (Eq.symm hi) hj
  | get _ | has _ | set _ _ | delete _ | iterator _ _ _ => exact hi.elim

namespace Transaction

/-- The `j`-th iterator goes through `keys`, and its tracker records it; `used` says whether
one of its methods was called. -/
def Watched (f : Bytes → Slice) (keys : List Bytes) (tracker₀ : IterationTracker) (j : ℕ)
    (used : Prop) (t : Transaction) : Prop :=
  ∃ (it : TrackedIterator) (tracker : IterationTracker) (n : ℕ),
    t.iterators[j]? = some it ∧ (it.iter.entries f).map Prod.fst = keys.drop n ∧
    t.store.iterateset[j]? = some tracker ∧ tracker₀.SameRange tracker ∧ tracker.Notes keys n ∧
    (used → tracker.Follows keys) ∧ (¬ used → tracker = tracker₀)

variable {t t' : Transaction} {s₁ : Store π} {call : Call} {keys : List Bytes}
  {tracker₀ tracker : IterationTracker} {j : ℕ} {used : Prop} {f : Bytes → Slice}
  {calls : List (Store π × Call)}

/-- A call of one of the iterator's methods. -/
theorem Watched.moved (h : Watched f keys tracker₀ j used t) {it it' : TrackedIterator}
    (hit : t.iterators[j]? = some it) (hpos : it.position = j)
    (hiterators : t'.iterators = t.iterators.set j it')
    (hmoved : Moved f it it' t.store.iterateset t'.store.iterateset) :
    Watched f keys tracker₀ j True t' := by
  obtain ⟨it₁, tracker, n, hit₁, hahead, htracker, hrange, hnotes, -, -⟩ := h
  obtain rfl := Option.some.inj (hit.symm.trans hit₁)
  have hit' : t'.iterators[j]? = some it' := by
    rw [hiterators, List.getElem?_set_self (List.getElem?_eq_some_iff.mp hit).1]
  have hmodify : ∀ g : IterationTracker → IterationTracker,
      (t.store.iterateset.modify it.position g)[j]? = some (g tracker) := by
    intro g
    rw [hpos, List.getElem?_modify_eq, htracker]
    rfl
  rcases hmoved.ahead with ⟨hes, hes', htrackers⟩ | ⟨e, es, hes, hes', htrackers⟩
  · rw [hes, List.map_nil] at hahead
    have hn : keys.length ≤ n := List.drop_eq_nil_iff.mp hahead.symm
    obtain ⟨hfollows, hnotes'⟩ := hnotes.setEarlyStopKey hn
    refine ⟨it', _, n, hit', ?_, htrackers ▸ hmodify _, ?_, hnotes', fun _ => hfollows,
      fun hunused => absurd trivial hunused⟩
    · rw [hes', ← hahead, List.map_nil]
    · exact ⟨hrange.startKey, hrange.endKey, hrange.ascending, hrange.writeset⟩
  · rw [hes, List.map_cons] at hahead
    have hn : keys[n]? = some e.1 := by
      rw [← List.head?_drop, ← hahead]
      rfl
    obtain ⟨hfollows, hstay, hpast⟩ := hnotes.addKey hn
    have hrange' : tracker₀.SameRange (tracker.addKey e.1) :=
      ⟨hrange.startKey, hrange.endKey, hrange.ascending, hrange.writeset⟩
    rcases hes' with hes' | hes'
    · refine ⟨it', _, n, hit', ?_, htrackers ▸ hmodify _, hrange', hstay, fun _ => hfollows,
        fun hunused => absurd trivial hunused⟩
      rw [hes', ← hahead, List.map_cons]
    · refine ⟨it', _, n + 1, hit', ?_, htrackers ▸ hmodify _, hrange', hpast, fun _ => hfollows,
        fun hunused => absurd trivial hunused⟩
      rw [hes', ← List.tail_drop, ← hahead, List.tail_cons]

/-- The trackers that a call leaves alone. -/
theorem Effect.getElem?_iterateset (h : Effect s index call t t') (ht : Steady s index t)
    (hj : ¬ call.On j) (htracker : t.store.iterateset[j]? = some tracker) :
    t'.store.iterateset[j]? = some tracker := by
  cases h with
  | other _ _ htrackers _ => exact getElem?_of_isPrefix htrackers htracker
  | method i it it' hon hit hiterators hmoved _ =>
    have hne : it.position ≠ j := by
      rw [ht.position i it hit]
      rintro rfl
      exact hj hon
    rcases hmoved.ahead with ⟨-, -, htrackers⟩ | ⟨_, _, -, -, htrackers⟩
    · rw [htrackers, List.getElem?_modify_ne _ _ hne]
      exact htracker
    · rw [htrackers, List.getElem?_modify_ne _ _ hne]
      exact htracker

/-- **The step lemma** for the iterator under observation. -/
theorem Watched.perform (h : Watched f keys tracker₀ j used t) (ht : Steady s index t)
    (hf : f = s.view index t.store.writeset) (heffect : Effect s index call t t') :
    Watched f keys tracker₀ j (used ∨ call.On j) t' := by
  by_cases hj : call.On j
  · cases heffect with
    | other hon _ _ _ => exact absurd hj (hon j)
    | method i it it' hon hit hiterators hmoved _ =>
      obtain rfl := hon.eq hj
      simpa [hj] using h.moved hit (ht.position i it hit) hiterators (hf ▸ hmoved)
  · obtain ⟨it, tracker, n, hit, hahead, htracker, hrest⟩ := h
    refine ⟨it, tracker, n, ?_, hahead, heffect.getElem?_iterateset ht hj htracker,
      by simpa [hj] using hrest⟩
    cases heffect with
    | other _ hiterators _ _ => exact getElem?_of_isPrefix hiterators hit
    | method i it₁ it' hon hit₁ hiterators hmoved _ =>
      have hne : i ≠ j := by
        rintro rfl
        exact hj hon
      rw [hiterators, List.getElem?_set_ne hne]
      exact hit

/-! ### Whole executions -/

/-- A new transaction. -/
theorem steady_new (s : Store π) (index : ℕ) (incarnation : ℤ) (abortChannel : Channel Abort)
    (totalTask : ℕ) : Steady s index (new index incarnation abortChannel totalTask) where
  agrees := ⟨rfl, fun k hk => absurd hk (AList.notMem_empty k), fun k values hk => by cases hk⟩
  grounded it hit := absurd hit List.not_mem_nil
  trackers := rfl
  position i it hit := by cases hit

/-- Calls one after the other. -/
theorem run_append {π : Type} [KVStore π] (t : Transaction) (calls calls' : List (Store π × Call)) :
    t.run (calls ++ calls') = (t.run calls).bind fun t' => t'.run calls' :=
  List.foldlM_append

/-- A run keeps the transaction steady. -/
theorem Steady.run (h : Steady s index t) (hs : Recorded s)
    (hsame : ∀ c ∈ calls, s.SameBelow index c.1) (hrun : t.run calls = some t') :
    Steady s index t' := by
  induction calls generalizing t with
  | nil =>
    obtain rfl := Option.some.inj hrun
    exact h
  | cons call calls ih =>
    obtain ⟨t₁, hcall, hrest⟩ := Option.bind_eq_some_iff.mp hrun
    exact ih (h.perform hs (hsame _ List.mem_cons_self) hcall).1
      (fun c hc => hsame c (List.mem_cons_of_mem _ hc)) hrest

/-- **The run lemma** for the iterator under observation: while nothing is written, it goes
on through the same keys. -/
theorem Watched.run (h : Watched f keys tracker₀ j used t) (ht : Steady s index t)
    (hf : f = s.view index t.store.writeset) (hs : Recorded s)
    (hsame : ∀ c ∈ calls, s.SameBelow index c.1) (hwrites : ∀ c ∈ calls, ¬ c.2.Writes)
    (hrun : t.run calls = some t') :
    Watched f keys tracker₀ j (used ∨ ∃ c ∈ calls, c.2.On j) t' := by
  induction calls generalizing t used with
  | nil =>
    obtain rfl := Option.some.inj hrun
    simpa using h
  | cons call calls ih =>
    obtain ⟨t₁, hcall, hrest⟩ := Option.bind_eq_some_iff.mp hrun
    obtain ⟨ht₁, heffect⟩ := ht.perform hs (hsame _ List.mem_cons_self) hcall
    have hf₁ : f = s.view index t₁.store.writeset := by
      cases heffect with
      | method _ _ _ _ _ _ _ hw => rw [hf, hw]
      | other _ _ _ hw => rw [hf, hw (hwrites _ List.mem_cons_self)]
    have hrest := ih (h.perform ht hf heffect) ht₁ hf₁
      (fun c hc => hsame c (List.mem_cons_of_mem _ hc))
      (fun c hc => hwrites c (List.mem_cons_of_mem _ hc)) hrest
    simpa [or_assoc] using hrest

/-- A tracker stays as it is when the methods of its iterator are not called any more. -/
theorem Steady.getElem?_iterateset_of_run (h : Steady s index t) (hs : Recorded s)
    (hsame : ∀ c ∈ calls, s.SameBelow index c.1) (hon : ∀ c ∈ calls, ¬ c.2.On j)
    (hrun : t.run calls = some t') (htracker : t.store.iterateset[j]? = some tracker) :
    t'.store.iterateset[j]? = some tracker := by
  induction calls generalizing t with
  | nil =>
    obtain rfl := Option.some.inj hrun
    exact htracker
  | cons call calls ih =>
    obtain ⟨t₁, hcall, hrest⟩ := Option.bind_eq_some_iff.mp hrun
    obtain ⟨ht₁, heffect⟩ := h.perform hs (hsame _ List.mem_cons_self) hcall
    exact ih ht₁ (fun c hc => hsame c (List.mem_cons_of_mem _ hc))
      (fun c hc => hon c (List.mem_cons_of_mem _ hc)) hrest
      (heffect.getElem?_iterateset h (hon _ List.mem_cons_self) htracker)

/-- A new iterator goes through the keys of its range that have a value in the view. -/
theorem Steady.watched_iterator (h : Steady s index t) (hs : Recorded s)
    (hsame : s.SameBelow index s₁) {start stop : Slice} {ascending : Bool}
    (hrun : t.perform s₁ (.iterator start stop ascending) = some t') :
    (start ≠ some [] ∧ stop ≠ some []) ∧ ∃ keys, keys.Pairwise (Before ascending) ∧
      (∀ k, k ∈ keys ↔ s.Live index (newIterationTracker start stop ascending t.store.writeset) k) ∧
      Watched (s.view index t.store.writeset) keys
        (newIterationTracker start stop ascending t.store.writeset) t.iterators.length False t' ∧
      t'.store.writeset = t.store.writeset := by
  cases performed_of_perform hrun with
  | iterator hit =>
    obtain ⟨items, parent, hitems, hbounds, hparent, rfl, rfl⟩ := run_iterator_eq_ok.mp hit
    obtain rfl := Except.ok.inj hitems
    generalize hcache : (t.store.iteratorItems (s₁.collectIteratorItems
      t.store.transactionIndex)).keysIn start stop ascending = cache
    have hsorted : cache.Pairwise (Before ascending) := hcache ▸ MemDB.pairwise_keysIn _ _ _ _
    have hmem : ∀ {c}, c ∈ cache ↔ isKeyInDomain c start stop = true ∧ c ≠ [] ∧
        ((∃ i < index, c ∈ s₁.writesetKeys i) ∨ c ∈ t.store.writeset ∨ c ∈ t.store.readset) := by
      intro c
      rw [← hcache, MemDB.mem_keysIn, h.agrees.index_eq, mem_iteratorItems]
    have hparent' : KVStore.iterator s.parentStore start stop ascending = .ok parent :=
      hsame.parentStore ▸ hparent
    -- outside the layer the view is the parent store
    have hout : ∀ k ≠ [], isKeyInDomain k start stop = true → k ∉ cache →
        s.view index t.store.writeset k = LawfulBasicKVStore.contents s.parentStore k := by
      intro k hne hdom hk
      have hwritten : t.store.writeset.lookup k = none :=
        AList.lookup_eq_none.mpr fun hw => hk (hmem.mpr ⟨hdom, hne, .inr (.inl hw)⟩)
      rw [Store.view, hwritten, Option.getD_none]
      exact hs.below_eq fun i hi hw =>
        hk (hmem.mpr ⟨hdom, hne, .inl ⟨i, hi, (hsame.writesetKeys i hi k).mpr hw⟩⟩)
    refine ⟨hbounds,
      (overlay ascending (s.view index t.store.writeset) parent cache).map Prod.fst,
      ?_, fun k => ?_, ?_, rfl⟩
    · exact List.pairwise_map.mpr (pairwise_overlay
        (LawfulKVStore.pairwise_iterator _ _ _ _ _ hparent') hsorted)
    · rw [Store.Live, ← Option.isSome_iff_ne_none]
      exact mem_map_fst_iff (fun _ _ => mem_overlay_iterator hparent' hsorted
        (fun c hc => ⟨(hmem.mp hc).2.1, (hmem.mp hc).1⟩) hout) k
    · refine ⟨_, _, 0, List.getElem?_concat_length, rfl, ?_, ⟨rfl, rfl, rfl, rfl⟩, ?_, False.elim,
        fun _ => rfl⟩
      · rw [← h.trackers]
        exact List.getElem?_concat_length
      · exact ⟨0, Nat.zero_le _, .inl rfl, fun k => by simp [newIterationTracker]⟩

end Transaction

/-- **When the validation of an unchanged iterator succeeds.** Take a reachable store with no
estimate below an index, and an execution at that index, all of whose calls meet states that
are the same below the index: calls `before`, the creation of an iterator, calls `steps`
without a write, and calls `later` that do not use the iterator any more. At a state that is
still the same below the index, `validateIterator` returns `true` for the tracker if and only
if one of the `steps` was a call on the iterator or no key of its range has a value, and every
key that the replay comes by has a version. -/
theorem validateIterator_complete_iff {versionList : Bool} {parent : π} {s s' sᵢ : Store π}
    {index : ℕ} (hs : Store.Reachable versionList parent s) (hest : s.NoEstimates index)
    (hs' : Store.Reachable versionList parent s') (hsame' : s.SameBelow index s')
    {before steps later : List (Store π × Call)} {start stop : Slice} {ascending : Bool}
    (hsame : ∀ c ∈ before ++ (sᵢ, .iterator start stop ascending) :: (steps ++ later),
      s.SameBelow index c.1)
    (hsteps : ∀ c ∈ steps, ¬ c.2.Writes) {incarnation : ℤ} {abortChannel : Channel Abort}
    {totalTask : ℕ} {t₀ t : Transaction}
    (hrun₀ : (Transaction.new index incarnation abortChannel totalTask).run before = some t₀)
    (hlater : ∀ c ∈ later, ¬ c.2.On t₀.iterators.length)
    (hrun : t₀.run ((sᵢ, .iterator start stop ascending) :: (steps ++ later)) = some t) :
    ∃ tracker, t.store.iterateset[t₀.iterators.length]? = some tracker ∧
      ((∀ valid, s'.ValidateIterator index tracker valid ↔ valid = true) ↔
        ((∃ c ∈ steps, c.2.On t₀.iterators.length) ∨ ∀ k, ¬ s'.Live index tracker k) ∧
          ∀ k, s'.Passed index tracker k → ¬ s'.Missing index tracker.writeset k) := by
  have hrec := hs.recorded
  -- the execution, part by part
  have ht₀ : t₀.Steady s index := (Transaction.steady_new s index incarnation abortChannel
    totalTask).run hrec (fun c hc => hsame c (by simp [hc])) hrun₀
  obtain ⟨t₁, hcreate, hrest⟩ := Option.bind_eq_some_iff.mp hrun
  have hsameᵢ : s.SameBelow index sᵢ := hsame (sᵢ, .iterator start stop ascending) (by simp)
  obtain ⟨⟨hstart, hstop⟩, keys, hsorted, hlive, hwatched, hw⟩ :=
    ht₀.watched_iterator hrec hsameᵢ hcreate
  have ht₁ := (ht₀.perform hrec hsameᵢ hcreate).1
  rw [show List.foldlM _ t₁ (steps ++ later) = t₁.run (steps ++ later) from rfl,
    Transaction.run_append] at hrest
  obtain ⟨t₂, hrun₂, hrun₃⟩ := Option.bind_eq_some_iff.mp hrest
  have hsame₂ : ∀ c ∈ steps, s.SameBelow index c.1 := fun c hc => hsame c (by simp [hc])
  obtain ⟨it, tracker, n, -, -, htracker, hrange, -, hused, hunused⟩ :=
    hwatched.run ht₁ (by rw [hw]) hrec hsame₂ hsteps hrun₂
  rw [false_or] at hused hunused
  refine ⟨tracker, (ht₁.run hrec hsame₂ hrun₂).getElem?_iterateset_of_run hrec
    (fun c hc => hsame c (by simp [hc])) hlater hrun₃ htracker, ?_⟩
  -- the replay goes through the same keys
  have hview : ∀ k, s'.view index tracker.writeset k = s.view index t₀.store.writeset k := by
    intro k
    rw [Store.view, hsame'.below_eq, hrange.writeset]
    rfl
  have hlive' : ∀ k, s'.Live index tracker k ↔ k ∈ keys := by
    intro k
    rw [hlive, Store.Live, Store.Live, hview, IterationTracker.InRange, hrange.startKey,
      hrange.endKey]
    rfl
  have hstart' : tracker.startKey ≠ some [] := hrange.startKey ▸ hstart
  have hstop' : tracker.endKey ≠ some [] := hrange.endKey ▸ hstop
  obtain ⟨itᵣ, hreplays⟩ := s'.exists_replays index hstart' hstop'
  have hkeys : (itᵣ.entries (s'.view index tracker.writeset)).map Prod.fst = keys := by
    refine eq_of_pairwise_of_asymm Before.asymm (hreplays.pairwise_keys _) ?_ fun k =>
      (hreplays.mem_keys hs'.recorded).trans (hlive' k)
    rw [hrange.ascending]
    exact hsorted
  have hnoest : ∀ k, ¬ s'.ReadsEstimate index tracker.writeset k := by
    rintro k ⟨-, latest, hlatest, he⟩
    rw [hsame'.latest] at hlatest
    cases (hest.latest hrec hlatest).symm.trans he
  have hnodup : keys.Nodup := hsorted.imp Before.ne
  have hne : [] ∉ keys := fun hk => ((hlive []).mp hk).1.1 rfl
  rw [hreplays.validates_iff hs'.recorded hstart' hstop' hnoest, hkeys]
  refine and_congr_left fun _ => ?_
  by_cases huse : ∃ c ∈ steps, c.2.On t₀.iterators.length
  · simp only [(hused huse).verdict hnodup hne, huse, true_or]
  · obtain rfl := hunused huse
    rw [IterationTracker.verdict_of_untouched rfl rfl hnodup hne,
      List.eq_nil_iff_forall_not_mem]
    simp only [huse, false_or, hlive']

end Completeness

/-- An iterator of which one method was called, after a read and before a write. -/
theorem validateIterator_complete_iff_run :
    ∃ (p : DbAdapter) (s : Store DbAdapter) (t : Transaction) (tracker : IterationTracker),
      (StoreOp.perform false 2 (.setWriteset 0 0 (AList.singleton [3] (some [5])))).run
        (newMultiVersionStore p) = .ok ⟨⟩ s ∧
      (Transaction.new 1 0 ⟨1, []⟩ 2).run [(s, .get [1]), (s, .iterator none none true),
        (s, .valid 0), (s, .set [2] (some [6]))] = some t ∧
      t.store.iterateset[0]? = some tracker ∧
      ((∀ valid, s.ValidateIterator 1 tracker valid ↔ valid = true) ↔
        ((∃ c ∈ [(s, Call.valid 0)], c.2.On 0) ∨ ∀ k, ¬ s.Live 1 tracker k) ∧
          ∀ k, s.Passed 1 tracker k → ¬ s.Missing 1 tracker.writeset k) := by
  obtain ⟨p, s, t₀, t, hrun, hrun₀, hlen, hrun₁⟩ :
      ∃ (p : DbAdapter) (s : Store DbAdapter) (t₀ t : Transaction),
        (StoreOp.perform false 2 (.setWriteset 0 0 (AList.singleton [3] (some [5])))).run
          (newMultiVersionStore p) = .ok ⟨⟩ s ∧
        (Transaction.new 1 0 ⟨1, []⟩ 2).run [(s, .get [1])] = some t₀ ∧
        t₀.iterators.length = 0 ∧
        t₀.run ((s, .iterator none none true) :: ([(s, .valid 0)] ++
          [(s, .set [2] (some [6]))])) = some t :=
    ⟨DbAdapter.empty.insert [1] (by decide) [7], _, _, _, rfl, rfl, rfl, rfl⟩
  have hs : Store.Reachable false p s := .setWriteset 0 0 _ 2 .new hrun
  have htracks := (Tracks.new 2 p).step (by decide) (by decide) hrun
  have hest : s.NoEstimates 1 := htracks.noEstimates fun i hi op hop => by
    obtain rfl : i = 0 := by omega
    obtain rfl := Option.some.inj hop
    rfl
  have hsame : ∀ c ∈ [(s, Call.get [1])] ++ (s, Call.iterator none none true) ::
      ([(s, Call.valid 0)] ++ [(s, Call.set [2] (some [6]))]), s.SameBelow 1 c.1 := by
    intro c hc
    simp only [List.mem_append, List.mem_cons, List.not_mem_nil, or_false] at hc
    rcases hc with rfl | rfl | rfl | rfl <;> exact .refl 1 s
  obtain ⟨tracker, htracker, hiff⟩ := validateIterator_complete_iff hs hest hs (.refl 1 s) hsame
    (fun c hc => by obtain rfl := List.mem_singleton.mp hc; exact id) hrun₀
    (fun c hc => by obtain rfl := List.mem_singleton.mp hc; exact id) hrun₁
  rw [hlen] at htracker hiff
  refine ⟨p, s, t, tracker, hrun, ?_, htracker, hiff⟩
  exact (Transaction.run_append _ [(s, .get [1])] _).trans (by rw [hrun₀]; exact hrun₁)

/-- **An iterator that was created and not used is rejected**, although nothing has changed:
its tracker expects no key, and the replay meets one. -/
theorem validateIterator_rejects_unused :
    ∃ (p : DbAdapter) (t : Transaction) (tracker : IterationTracker),
      p.lookup [1] = some [7] ∧
      (Transaction.new 1 0 ⟨1, []⟩ 2).run
        [(newMultiVersionStore p, .iterator none none true)] = some t ∧
      t.store.iterateset = [tracker] ∧
      (newMultiVersionStore p).ValidateIterator 1 tracker false ∧
      ¬ (newMultiVersionStore p).ValidateIterator 1 tracker true :=
  ⟨DbAdapter.empty.insert [1] (by decide) [7], _, _, rfl, rfl, rfl,
    Race.canReturn_verdict_iff.mpr rfl, fun h => by cases Race.canReturn_verdict_iff.mp h⟩

end MelodiaStore
