import MelodiaStore.Readset

/-!
# The Two Validators of Read Sets

A read set is validated in two places. `VersionIndexedStore.ValidateReadset` of
`multiversion/mvkv.go` goes through its own read set in the order of the keys and stops at
the first objection, `Store.checkReadsetAtIndex` goes through the published copy and collects
them all.

They sort one kind of entry differently: the version that was read has been removed, and the
parent store has another value. To `checkReadsetAtIndex` that is an invalid read like any
other; `ValidateReadset` holds it to be impossible and panics, unless it has met a conflict
in the multi-version store before.

## Main results

* `validators_agree_iff`: the validators agree, and `ValidateReadset` returns, exactly when
  every entry of the last kind has one in conflict before it.
-/

namespace MelodiaStore

namespace VersionIndexedStore

variable {π : Type} [KVStore π]

/-- One round of the loop of `ValidateReadset`: whether the entry of a key is valid. -/
def validateRead (key : Bytes) : EStateM Panic (Mvkv (Store π)) Bool := do
  let m ← MonadState.get
  match (m.store.readset.lookup key).getD [] with
  | [value] =>
    match ← ofExcept (m.multiVersionStore.getLatestBeforeIndex m.store.transactionIndex key) with
    | some mvsValue =>
      if mvsValue.isEstimate then do
        writeAbort (newEstimateAbort mvsValue.index)
        pure false
      else if mvsValue.isDeleted then pure value.isNone
      else pure (bytesEqual value mvsValue.value)
    | none =>
      let parentValue ← ofExcept (BasicKVStore.get m.multiVersionStore.parentStore key)
      if bytesEqual parentValue value then pure true
      else throw (.text "we shouldn't ever have a readset conflict in parent store")
  | _ => pure false

/-- `ValidateReadset`. -/
def validateReadset : EStateM Panic (Mvkv (Store π)) Bool := do
  (sortStrings (← MonadState.get).store.readset.keys).allM validateRead

end VersionIndexedStore

open VersionIndexedStore (validateRead validateReadset)

/-! ### The kinds of entries -/

namespace Store

section Kinds

variable {π : Type} [KVStore π]

/-- An entry in conflict with the multi-version store: there is not exactly one value, or
the latest earlier version is an estimate, or it is a deletion although a value was read, or
its value is another one. -/
def ConflictingRead (s : Store π) (index : ℕ) (key : Bytes) (values : List Slice) : Prop :=
  values.length ≠ 1 ∨ ∃ value latest, values = [value] ∧
    s.getLatestBeforeIndex index key = .ok (some latest) ∧
    (latest.isEstimate = true ∨
      latest.value = none ∧ value ≠ none ∨
      latest.value ≠ none ∧ bytesEqual latest.value value = false)

/-- An entry for which the multi-version store has no earlier version, whereas the parent
store has another value; or the lookup in the multi-version store panics. -/
def UnansweredRead (s : Store π) (index : ℕ) (key : Bytes) (values : List Slice) : Prop :=
  ∃ value, values = [value] ∧
    (s.getLatestBeforeIndex index key = .ok none ∧
        (∃ parentVal, BasicKVStore.get s.parentStore key = .ok parentVal ∧
          bytesEqual parentVal value = false) ∨
      ∃ e, s.getLatestBeforeIndex index key = .error e)

end Kinds

variable {π : Type} [LawfulKVStore π] {s : Store π} {index : ℕ} {key : Bytes} {values : List Slice}

/-- **Every entry is of one of three kinds.** -/
theorem read_cases (s : Store π) (index : ℕ) (values : List Slice) (hkey : ValidKey key) :
    s.verdict index key values = .ok (true, none) ∨ s.ConflictingRead index key values ∨
      s.UnansweredRead index key values := by
  rcases values with _ | ⟨value, _ | ⟨value', values⟩⟩
  · exact .inr (.inl (.inl (by simp)))
  · cases hlatest : s.getLatestBeforeIndex index key with
    | error e => exact .inr (.inr ⟨value, rfl, .inr ⟨e, hlatest⟩⟩)
    | ok found =>
      cases found with
      | none =>
        have hget := LawfulBasicKVStore.get_eq s.parentStore key hkey
        cases heq : bytesEqual (LawfulBasicKVStore.contents s.parentStore key) value with
        | true => exact .inl (verdict_eq_valid_iff.mpr
            ⟨value, rfl, .inl ⟨hlatest, _, hget, heq⟩⟩)
        | false => exact .inr (.inr ⟨value, rfl, .inl ⟨hlatest, _, hget, heq⟩⟩)
      | some latest =>
        by_cases hconflict : s.ConflictingRead index key [value]
        · exact .inr (.inl hconflict)
        · refine .inl (verdict_eq_valid_iff.mpr ⟨value, rfl, .inr ⟨latest, hlatest, ?_⟩⟩)
          have hno : ∀ hbad : latest.isEstimate = true ∨
              latest.value = none ∧ value ≠ none ∨
              latest.value ≠ none ∧ bytesEqual latest.value value = false, False :=
            fun hbad => hconflict (.inr ⟨value, latest, rfl, hlatest, hbad⟩)
          refine ⟨Bool.eq_false_iff.mpr fun h => hno (.inl h), ?_⟩
          by_cases hdeleted : latest.value = none
          · exact .inl ⟨hdeleted, by_contra fun h => hno (.inr (.inl ⟨hdeleted, h⟩))⟩
          · refine .inr ⟨Option.ne_none_iff_exists'.mp hdeleted, ?_⟩
            exact Bool.eq_true_of_not_eq_false fun h => hno (.inr (.inr ⟨hdeleted, h⟩))
  · exact .inr (.inl (.inl (by simp)))

omit [LawfulKVStore π] in
/-- An entry in conflict with the multi-version store does not pass. -/
theorem ConflictingRead.verdict_ne [KVStore π] (h : s.ConflictingRead index key values) :
    s.verdict index key values ≠ .ok (true, none) := by
  intro hvalid
  obtain ⟨value, rfl, hcases⟩ := verdict_eq_valid_iff.mp hvalid
  rcases h with hlength | ⟨value', latest, hvalues, hlatest, hbad⟩
  · exact hlength rfl
  · obtain rfl : value = value' := by simpa using hvalues
    rcases hcases with ⟨hnone, -⟩ | ⟨latest', hlatest', hest, hvalue⟩
    · cases hlatest.symm.trans hnone
    · obtain rfl : latest = latest' := by
        simpa using Except.ok.inj (hlatest.symm.trans hlatest')
      rcases hbad with hbad | ⟨hnone, hsome⟩ | ⟨hsome, hne⟩
      · exact Bool.false_ne_true (hest.symm.trans hbad)
      · rcases hvalue with ⟨-, h⟩ | ⟨⟨b, hb⟩, -⟩
        · exact hsome h
        · exact Option.some_ne_none b (hb.symm.trans hnone)
      · rcases hvalue with ⟨h, -⟩ | ⟨-, heq⟩
        · exact hsome h
        · exact Bool.false_ne_true (hne.symm.trans heq)

omit [LawfulKVStore π] in
/-- An entry without an answer does not pass. -/
theorem UnansweredRead.verdict_ne [KVStore π] (h : s.UnansweredRead index key values) :
    s.verdict index key values ≠ .ok (true, none) := by
  intro hvalid
  obtain ⟨value, rfl, hcases⟩ := verdict_eq_valid_iff.mp hvalid
  obtain ⟨value', hvalues, hlatest⟩ := h
  obtain rfl : value = value' := by simpa using hvalues
  rcases hlatest with ⟨hnone, parentVal, hget, hne⟩ | ⟨e, he⟩
  · rcases hcases with ⟨-, parentVal', hget', heq⟩ | ⟨latest, hlatest, -⟩
    · obtain rfl : parentVal = parentVal' := Except.ok.inj (hget.symm.trans hget')
      exact Bool.false_ne_true (hne.symm.trans heq)
    · cases hnone.symm.trans hlatest
  · rcases hcases with ⟨hnone, -⟩ | ⟨latest, hlatest, -⟩
    · cases he.symm.trans hnone
    · cases he.symm.trans hlatest

omit [LawfulKVStore π] in
/-- An entry without an answer is not in conflict with the multi-version store. -/
theorem UnansweredRead.not_conflicting [KVStore π] (h : s.UnansweredRead index key values) :
    ¬ s.ConflictingRead index key values := by
  obtain ⟨value, rfl, hlatest⟩ := h
  rintro (hlength | ⟨value', latest, -, hlatest', -⟩)
  · exact hlength rfl
  · rcases hlatest with ⟨hnone, -⟩ | ⟨e, he⟩
    · cases hnone.symm.trans hlatest'
    · cases he.symm.trans hlatest'

end Store

/-! ### One round of `ValidateReadset` -/

section Round

variable {π : Type} [KVStore π] {store : VersionIndexedStore} {s : Store π} {key : Bytes}
  {values : List Slice}

/-- A round looks the key up in the multi-version store if one value was read for it. -/
theorem run_validateRead_single {value : Slice} (hk : store.readset.lookup key = some [value]) :
    (validateRead key).run (⟨store, s⟩ : Mvkv (Store π)) =
      match s.getLatestBeforeIndex store.transactionIndex key with
      | .error e => .error e ⟨store, s⟩
      | .ok (some mvsValue) =>
        if mvsValue.isEstimate then
          .ok false ⟨{ store with abortChannel :=
            store.abortChannel.trySend (newEstimateAbort mvsValue.index) }, s⟩
        else if mvsValue.isDeleted then .ok value.isNone ⟨store, s⟩
        else .ok (bytesEqual value mvsValue.value) ⟨store, s⟩
      | .ok none =>
        match BasicKVStore.get s.parentStore key with
        | .error e => .error e ⟨store, s⟩
        | .ok parentValue =>
          if bytesEqual parentValue value then .ok true ⟨store, s⟩
          else .error (.text "we shouldn't ever have a readset conflict in parent store")
            ⟨store, s⟩ := by
  rw [validateRead, run_bind_of_ok (EStateM.run_get _)]
  simp only [hk, Option.getD_some]
  cases s.getLatestBeforeIndex store.transactionIndex key with
  | error e => rfl
  | ok found =>
    rw [run_bind_of_ok (run_ofExcept_ok found _)]
    cases found with
    | some mvsValue =>
      dsimp only
      split_ifs
      all_goals rfl
    | none =>
      dsimp only
      cases BasicKVStore.get s.parentStore key with
      | error e => rfl
      | ok parentValue =>
        rw [run_bind_of_ok (run_ofExcept_ok parentValue _)]
        dsimp only
        split_ifs
        all_goals rfl

theorem bytesEqual_comm (a b : Slice) : bytesEqual a b = bytesEqual b a :=
  Bool.eq_iff_iff.mpr (by rw [bytesEqual_iff, bytesEqual_iff, eq_comm])

section

variable (hk : store.readset.lookup key = some values)
include hk

/-- An entry that passes for `checkReadsetAtIndex` passes for `ValidateReadset`. -/
theorem run_validateRead_of_verdict
    (h : s.verdict store.transactionIndex key values = .ok (true, none)) :
    (validateRead key).run (⟨store, s⟩ : Mvkv (Store π)) =
      .ok true ⟨store, s⟩ := by
  obtain ⟨value, rfl, ⟨hnone, parentVal, hget, heq⟩ | ⟨latest, hlatest, hest, hvalue⟩⟩ :=
    Store.verdict_eq_valid_iff.mp h
  · rw [run_validateRead_single hk, hnone, hget]
    exact if_pos heq
  · rw [run_validateRead_single hk, hlatest]
    have hest' : latest.estimate = false := hest
    rcases hvalue with ⟨hdeleted, rfl⟩ | ⟨⟨b, hb⟩, heq⟩
    · simp [hest, ValueItem.isDeleted, hdeleted, hest']
    · rw [bytesEqual_comm, hb] at heq
      simp [hest, ValueItem.isDeleted, hb, heq]

/-- At an entry in conflict with the multi-version store the validation fails. -/
theorem run_validateRead_of_conflicting (h : s.ConflictingRead store.transactionIndex key values) :
    ∃ m, (validateRead key).run (⟨store, s⟩ : Mvkv (Store π)) =
      .ok false m := by
  rcases h with hlength | ⟨value, latest, rfl, hlatest, hbad⟩
  · refine ⟨⟨store, s⟩, ?_⟩
    rw [validateRead, run_bind_of_ok (EStateM.run_get _)]
    simp only [hk, Option.getD_some]
    rcases values with _ | ⟨v, _ | ⟨w, values⟩⟩
    · rfl
    · exact absurd rfl hlength
    · rfl
  · rw [run_validateRead_single hk, hlatest]
    dsimp only
    cases hest : latest.isEstimate with
    | true => exact ⟨_, if_pos rfl⟩
    | false =>
      have hest' : latest.estimate = false := hest
      refine ⟨⟨store, s⟩, ?_⟩
      rcases hbad with hbad | ⟨hnone, hsome⟩ | ⟨hsome, hne⟩
      · exact absurd (hest.symm.trans hbad) Bool.false_ne_true
      · obtain ⟨b, rfl⟩ := Option.ne_none_iff_exists'.mp hsome
        simp [ValueItem.isDeleted, hnone, hest']
      · obtain ⟨b, hb⟩ := Option.ne_none_iff_exists'.mp hsome
        rw [bytesEqual_comm, hb] at hne
        simp [ValueItem.isDeleted, hb, hne]

/-- At an entry without an answer the validation panics. -/
theorem run_validateRead_of_unanswered (h : s.UnansweredRead store.transactionIndex key values) :
    ∃ e, (validateRead key).run (⟨store, s⟩ : Mvkv (Store π)) =
      .error e ⟨store, s⟩ := by
  obtain ⟨value, rfl, ⟨hnone, parentVal, hget, hne⟩ | ⟨e, he⟩⟩ := h
  · refine ⟨.text "we shouldn't ever have a readset conflict in parent store", ?_⟩
    rw [run_validateRead_single hk, hnone, hget]
    exact if_neg (Bool.eq_false_iff.mp hne)
  · refine ⟨e, ?_⟩
    rw [run_validateRead_single hk, he]

end

end Round

/-! ### Agreement -/

section Agreement

variable {π : Type} [LawfulKVStore π] {store : VersionIndexedStore} {s : Store π} {index : ℕ}

/-- **What `ValidateReadset` does**: it passes if all entries do, and otherwise ends as it
does at the first entry that does not pass. -/
theorem run_validateReadset_cases (hstore : Recording π index store) :
    (∀ k values, store.readset.lookup k = some values →
        s.verdict index k values = .ok (true, none)) ∧
      validateReadset.run (⟨store, s⟩ : Mvkv (Store π)) =
        .ok true ⟨store, s⟩ ∨
    ∃ k values, store.readset.lookup k = some values ∧
      (∀ k' values', k' < k → store.readset.lookup k' = some values' →
        s.verdict index k' values' = .ok (true, none)) ∧
      (s.ConflictingRead index k values ∧
          (∃ m, validateReadset.run (⟨store, s⟩ : Mvkv (Store π)) =
            .ok false m) ∨
        s.UnansweredRead index k values ∧
          ∃ e, validateReadset.run (⟨store, s⟩ : Mvkv (Store π)) =
            .error e ⟨store, s⟩) := by
  obtain rfl := hstore.transactionIndex_eq
  have hmem : ∀ {k}, k ∈ sortStrings store.readset.keys ↔
      ∃ values, store.readset.lookup k = some values := fun {k} => by
    rw [mem_sortStrings, ← AList.mem_keys, mem_iff_exists_lookup]
  rw [validateReadset, run_bind_of_ok (EStateM.run_get _)]
  rcases forall_or_exists_first (fun k => ∀ values, store.readset.lookup k = some values →
      s.verdict store.transactionIndex k values = .ok (true, none))
      (sortStrings store.readset.keys) with hall | ⟨pre, k, post, hkeys, hpre, hk⟩
  · refine .inl ⟨fun k values hk => hall k (hmem.mpr ⟨values, hk⟩) values hk, ?_⟩
    refine run_allM_of_forall fun k hk => ?_
    obtain ⟨values, hvalues⟩ := hmem.mp hk
    exact run_validateRead_of_verdict hvalues (hall k hk values hvalues)
  · refine .inr ?_
    have hsorted := sortStrings_pairwise store.readset.keys_nodup
    rw [hkeys] at hsorted
    obtain ⟨values, hvalues, hnot⟩ : ∃ values, store.readset.lookup k = some values ∧
        s.verdict store.transactionIndex k values ≠ .ok (true, none) := by
      simpa only [not_forall, exists_prop] using hk
    have hfirst : ∀ b ∈ pre, (validateRead b).run
        (⟨store, s⟩ : Mvkv (Store π)) = .ok true ⟨store, s⟩ := by
      intro b hb
      obtain ⟨values', hvalues'⟩ := hmem.mp (hkeys ▸ List.mem_append_left _ hb)
      exact run_validateRead_of_verdict hvalues' (hpre b hb values' hvalues')
    refine ⟨k, values, hvalues, fun k' values' hlt hvalues' => ?_, ?_⟩
    · have hk' := hmem.mpr ⟨values', hvalues'⟩
      rw [hkeys] at hk'
      exact hpre k' (mem_front_of_lt hsorted hk' hlt) values' hvalues'
    · have hvalid := hstore.valid k (mem_iff_exists_lookup.mpr ⟨values, hvalues⟩)
      rcases Store.read_cases s store.transactionIndex values hvalid with
        h | hconflict | hunanswered
      · exact absurd h hnot
      · obtain ⟨m, hm⟩ := run_validateRead_of_conflicting hvalues hconflict
        refine .inl ⟨hconflict, m, ?_⟩
        rw [hkeys, run_allM_append_cons hfirst]
        · exact hm
        · intro m' hm'
          cases hm.symm.trans hm'
      · obtain ⟨e, he⟩ := run_validateRead_of_unanswered hvalues hunanswered
        refine .inr ⟨hunanswered, e, ?_⟩
        rw [hkeys, run_allM_append_cons hfirst]
        · exact he
        · intro m' hm'
          cases he.symm.trans hm'

/-- **When the validators agree.** Take a read set that an execution has recorded and
published. `ValidateReadset` returns, and it returns true exactly when `checkReadsetAtIndex`
has no objections, if and only if before every entry without an answer there is one in
conflict with the multi-version store. -/
theorem validators_agree_iff (hstore : Recording π index store)
    (hread : s.getReadset index = store.readset) :
    (∃ valid m, VersionIndexedStore.validateReadset.run (⟨store, s⟩ : Mvkv (Store π)) =
        .ok valid m ∧ (valid = true ↔ s.checkReadsetAtIndex index = .ok (true, []))) ↔
      ∀ k values, store.readset.lookup k = some values → s.UnansweredRead index k values →
        ∃ k' values', k' < k ∧ store.readset.lookup k' = some values' ∧
          s.ConflictingRead index k' values' := by
  rw [Store.checkReadset_eq_valid_iff, hread]
  rcases run_validateReadset_cases (s := s) hstore with
    ⟨hall, hrun⟩ | ⟨k, values, hvalues, hbelow, ⟨hconflict, m, hrun⟩ | ⟨hunanswered, e, hrun⟩⟩
  · -- all entries pass, so none is without an answer
    refine ⟨fun _ k values hk hun => absurd (hall k values hk) hun.verdict_ne, fun _ => ?_⟩
    exact ⟨true, _, hrun, fun _ => hall, fun _ => rfl⟩
  · refine ⟨fun _ k' values' hk' hun => ⟨k, values, ?_, hvalues, hconflict⟩, fun _ => ?_⟩
    · -- an entry without an answer is not among those that pass before `k`, nor is it `k`
      rcases lt_trichotomy k k' with hlt | rfl | hgt
      · exact hlt
      · obtain rfl := Option.some.inj (hvalues.symm.trans hk')
        exact absurd hconflict hun.not_conflicting
      · exact absurd (hbelow k' values' hgt hk') hun.verdict_ne
    · refine ⟨false, m, hrun, fun h => absurd h Bool.false_ne_true, fun hall => ?_⟩
      exact absurd (hall k values hvalues) hconflict.verdict_ne
  · constructor
    · rintro ⟨valid, m, hok, -⟩
      cases hrun.symm.trans hok
    · intro h
      obtain ⟨k', values', hlt, hvalues', hconflict⟩ := h k values hvalues hunanswered
      exact absurd (hbelow k' values' hlt hvalues') hconflict.verdict_ne

end Agreement

/-- A transaction reads the write of the one before it and publishes; the validators agree
on it. -/
theorem validators_agree_of_write :
    ∃ (s₁ s₂ : Store DbAdapter) (store : VersionIndexedStore),
    (Store.setWriteset false 0 0 (AList.singleton [1] (some [7])) 2).run
      (newMultiVersionStore DbAdapter.empty) = .ok ⟨⟩ s₁ ∧
    (VersionIndexedStore.get [1]).run
      (⟨newVersionIndexedStore 1 0 ⟨1, []⟩ 2, s₁⟩ : Mvkv (Store DbAdapter)) =
        .ok (some [7]) ⟨store, s₁⟩ ∧
    (VersionIndexedStore.writeToMultiVersionStore false).run
      (⟨store, s₁⟩ : Mvkv (Store DbAdapter)) = .ok ⟨⟩ ⟨store, s₂⟩ ∧
    ((∃ valid m, VersionIndexedStore.validateReadset.run
        (⟨store, s₂⟩ : Mvkv (Store DbAdapter)) =
        .ok valid m ∧ (valid = true ↔ s₂.checkReadsetAtIndex 1 = .ok (true, []))) ↔
      ∀ k values, store.readset.lookup k = some values → s₂.UnansweredRead 1 k values →
        ∃ k' values', k' < k ∧ store.readset.lookup k' = some values' ∧
          s₂.ConflictingRead 1 k' values') := by
  refine ⟨_, _, _, rfl, and_of_run rfl fun hget => ⟨rfl, ?_⟩⟩
  exact validators_agree_iff (.get (.new 0 ⟨1, []⟩ 2) hget) rfl

/-- **A write that was taken back**: a transaction reads the write of an earlier one, which
is executed again without that write. `checkReadsetAtIndex` finds the read set invalid,
`ValidateReadset` panics. -/
theorem validators_disagree :
    ∃ (s₁ s₂ s₃ : Store DbAdapter) (store : VersionIndexedStore),
    (Store.setWriteset false 0 0 (AList.singleton [1] (some [7])) 2).run
      (newMultiVersionStore DbAdapter.empty) = .ok ⟨⟩ s₁ ∧
    (VersionIndexedStore.get [1]).run
      (⟨newVersionIndexedStore 1 0 ⟨1, []⟩ 2, s₁⟩ : Mvkv (Store DbAdapter)) =
        .ok (some [7]) ⟨store, s₁⟩ ∧
    (VersionIndexedStore.writeToMultiVersionStore false).run
      (⟨store, s₁⟩ : Mvkv (Store DbAdapter)) = .ok ⟨⟩ ⟨store, s₂⟩ ∧
    (Store.setWriteset false 0 1 ∅ 2).run s₂ = .ok ⟨⟩ s₃ ∧
    s₃.checkReadsetAtIndex 1 = .ok (false, []) ∧
    VersionIndexedStore.validateReadset.run (⟨store, s₃⟩ : Mvkv (Store DbAdapter)) =
      .error (.text "we shouldn't ever have a readset conflict in parent store")
        ⟨store, s₃⟩ :=
  ⟨_, _, _, _, rfl, rfl, rfl, rfl, rfl, rfl⟩

end MelodiaStore
