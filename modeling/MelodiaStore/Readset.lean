import MelodiaStore.Mvkv

/-!
# Validation of Read Sets

`Store.checkReadsetAtIndex` of `multiversion/store.go`, which compares the values recorded
by an execution with what the transaction would read now.

The check tells values apart with `bytes.Equal`, for which `nil` and the empty value are
the same, except against a deletion, where it asks for `nil`. An absent key and a key with
the empty value are therefore confused in three of the four combinations, and
`Store.Ambiguous` lists them.

## Main results

* `Store.checkReadset_exact_iff`: it is exactly that value for every key, and `Has` answers
  the same, if and only if no entry is ambiguous.
-/

namespace MelodiaStore

namespace Store

variable {π : Type} [KVStore π]

/-- What `checkReadsetAtIndex` finds for one key and the values read for it: whether the
entry is valid, and the transaction it is in conflict with. -/
def verdict (s : Store π) (index : ℕ) (key : Bytes) (valueArr : List Slice) :
    Except Panic (Bool × Option ℕ) :=
  match valueArr with
  | [value] =>
    match s.getLatestBeforeIndex index key with
    | .error e => .error e
    | .ok none => (BasicKVStore.get s.parentStore key).map fun parentVal =>
      (bytesEqual parentVal value, none)
    | .ok (some latestValue) =>
      if latestValue.isEstimate then .ok (true, some latestValue.index)
      else if latestValue.isDeleted then
        if value.isSome then .ok (false, some latestValue.index) else .ok (true, none)
      else if bytesEqual latestValue.value value then .ok (true, none)
      else .ok (false, some latestValue.index)
  | _ => .ok (false, none)

/-- One round of the loop of `checkReadsetAtIndex`. -/
def checkRead (s : Store π) (index : ℕ) (found : Bool × List ℕ)
    (entry : (_ : Bytes) × List Slice) : Except Panic (Bool × List ℕ) :=
  (s.verdict index entry.1 entry.2).map fun (valid, conflict) =>
    (found.1 && valid, conflict.elim found.2 found.2.insert)

/-- `checkReadsetAtIndex`: whether the read set is valid, and the sorted indices of the
transactions it is in conflict with. -/
def checkReadsetAtIndex (s : Store π) (index : ℕ) : Except Panic (Bool × List ℕ) :=
  match s.txReadSets.lookup index with
  | none => .ok (true, [])
  | some readset =>
    (readset.entries.foldlM (s.checkRead index) (true, [])).map fun (valid, conflictSet) =>
      (valid, sortInts conflictSet)

/-! ### One entry -/

variable {s : Store π} {index : ℕ} {key : Bytes} {values : List Slice}
  {l : List ((_ : Bytes) × List Slice)} {found : Bool × List ℕ} {value : Slice}

/-- **When an entry passes**: one value was read for the key, and it agrees with the latest
earlier version, which is no estimate, or without one with the parent store. -/
theorem verdict_eq_valid_iff :
    s.verdict index key values = .ok (true, none) ↔
      ∃ value, values = [value] ∧
        (s.getLatestBeforeIndex index key = .ok none ∧
            (∃ parentVal, BasicKVStore.get s.parentStore key = .ok parentVal ∧
              bytesEqual parentVal value = true) ∨
          ∃ latest, s.getLatestBeforeIndex index key = .ok (some latest) ∧
            latest.isEstimate = false ∧
            (latest.value = none ∧ value = none ∨
              (∃ b, latest.value = some b) ∧ bytesEqual latest.value value = true)) := by
  unfold verdict
  rcases values with _ | ⟨value, _ | ⟨value', values⟩⟩
  · simp
  · simp only [List.cons.injEq, and_true, exists_eq_left']
    cases hl : s.getLatestBeforeIndex index key with
    | error e => simp
    | ok found =>
      cases found with
      | none =>
        cases BasicKVStore.get s.parentStore key with
        | error e => simp [Except.map]
        | ok v => simp [Except.map]
      | some latest =>
        simp only [Except.ok.injEq, reduceCtorEq, false_and, false_or, Option.some.injEq,
          exists_eq_left']
        cases hest : latest.isEstimate with
        | true => simp
        | false =>
          have hest' : latest.estimate = false := hest
          cases hv : latest.value with
          | none =>
            cases value <;> simp [ValueItem.isDeleted, hv, hest']
          | some b => simp [ValueItem.isDeleted, hv, hest']
  · simp

/-- An entry that passes agrees with what would be fetched, up to `bytes.Equal`. -/
theorem fetch_of_verdict (h : s.verdict index key values = .ok (true, none)) :
    ∃ value fetched, values = [value] ∧ s.fetch index key = .ok fetched ∧
      bytesEqual fetched value = true := by
  obtain ⟨value, rfl, ⟨hnone, parentVal, hparent, heq⟩ | ⟨latest, hlatest, hest, hvalue⟩⟩ :=
    verdict_eq_valid_iff.mp h
  · refine ⟨value, parentVal, rfl, ?_, heq⟩
    rw [fetch, hnone]
    exact hparent
  · refine ⟨value, latest.value, rfl, ?_, ?_⟩
    · rw [fetch, hlatest]
      simp [hest]
    · rcases hvalue with ⟨hl, rfl⟩ | ⟨-, heq⟩
      · rw [hl]
        rfl
      · exact heq

/-! ### The whole read set -/

theorem eq_nil_of_sortInts {l : List ℕ} (h : sortInts l = []) : l = [] := by
  have hperm := List.perm_insertionSort (· ≤ ·) l
  rw [show l.insertionSort (· ≤ ·) = [] from h] at hperm
  exact hperm.nil_eq.symm

/-- A loop without objections has found none in any entry. -/
theorem verdict_of_foldlM (h : l.foldlM (s.checkRead index) found = .ok (true, [])) :
    found = (true, []) ∧ ∀ e ∈ l, s.verdict index e.1 e.2 = .ok (true, none) := by
  induction l generalizing found with
  | nil =>
    obtain rfl : found = (true, []) := Except.ok.inj h
    exact ⟨rfl, fun e he => absurd he List.not_mem_nil⟩
  | cons e l ih =>
    rw [List.foldlM_cons] at h
    cases hv : s.verdict index e.1 e.2 with
    | error err =>
      rw [checkRead, hv] at h
      cases h
    | ok r =>
      obtain ⟨valid, conflict⟩ := r
      rw [checkRead, hv] at h
      obtain ⟨hround, hrest⟩ := ih h
      obtain ⟨hvalid, hconflict⟩ := Prod.mk.inj hround
      obtain ⟨hfound, rfl⟩ := Bool.and_eq_true_iff.mp hvalid
      cases conflict with
      | some i =>
        -- a conflict would still be listed
        have hmem : i ∈ found.2.insert i := List.mem_insert_self
        rw [show found.2.insert i = [] from hconflict] at hmem
        exact absurd hmem List.not_mem_nil
      | none =>
        refine ⟨Prod.ext hfound hconflict, fun e' he' => ?_⟩
        rcases List.mem_cons.mp he' with rfl | he'
        · exact hv
        · exact hrest e' he'

/-- The check fails once an entry is found invalid. -/
theorem fst_of_foldlM {found' : Bool × List ℕ} (h : l.foldlM (s.checkRead index) found = .ok found')
    (hbad : found.1 = false ∨
      ∃ e ∈ l, ∃ conflict, s.verdict index e.1 e.2 = .ok (false, conflict)) : found'.1 = false := by
  induction l generalizing found with
  | nil =>
    obtain rfl := Except.ok.inj h
    exact hbad.resolve_right fun ⟨e, he, _⟩ => absurd he List.not_mem_nil
  | cons e l ih =>
    rw [List.foldlM_cons] at h
    cases hv : s.verdict index e.1 e.2 with
    | error err =>
      rw [checkRead, hv] at h
      cases h
    | ok r =>
      rw [checkRead, hv] at h
      refine ih h ?_
      rcases hbad with hfound | ⟨e', he', conflict, hverdict⟩
      · exact .inl (by simp only [hfound, Bool.false_and])
      · rcases List.mem_cons.mp he' with rfl | he'
        · obtain rfl := Except.ok.inj (hv.symm.trans hverdict)
          exact .inl (Bool.and_false _)
        · exact .inr ⟨e', he', conflict, hverdict⟩

/-- The check returns when the lookups of all entries do. -/
theorem exists_foldlM (h : ∀ e ∈ l, ∃ r, s.verdict index e.1 e.2 = .ok r) (found : Bool × List ℕ) :
    ∃ found', l.foldlM (s.checkRead index) found = .ok found' := by
  induction l generalizing found with
  | nil => exact ⟨found, rfl⟩
  | cons e l ih =>
    obtain ⟨r, hr⟩ := h e List.mem_cons_self
    rw [List.foldlM_cons, checkRead, hr]
    exact ih (fun e' he' => h e' (List.mem_cons_of_mem e he')) _

/-- A key for which several values were read is invalid. -/
theorem verdict_of_length_ne_one (h : values.length ≠ 1) :
    s.verdict index key values = .ok (false, none) := by
  rcases values with _ | ⟨v, _ | ⟨w, values⟩⟩
  · rfl
  · exact absurd rfl h
  · rfl

/-- The lookup of an entry returns when the reads it makes do. -/
theorem exists_verdict (hlatest : ∃ latest, s.getLatestBeforeIndex index key = .ok latest)
    (hparent : ∃ value, BasicKVStore.get s.parentStore key = .ok value) (values : List Slice) :
    ∃ r, s.verdict index key values = .ok r := by
  obtain ⟨latest, hlatest⟩ := hlatest
  obtain ⟨parentVal, hparent⟩ := hparent
  rcases values with _ | ⟨value, _ | ⟨w, values⟩⟩
  · exact ⟨_, rfl⟩
  · unfold verdict
    rw [hlatest]
    cases latest with
    | none => exact ⟨(bytesEqual parentVal value, none), by rw [hparent]; rfl⟩
    | some latest =>
      dsimp only
      split_ifs
      all_goals exact ⟨_, rfl⟩
  · exact ⟨_, rfl⟩

/-- After a check without objections every entry of the read set passes. -/
theorem verdict_of_checkReadset (h : s.checkReadsetAtIndex index = .ok (true, []))
    (hk : (s.getReadset index).lookup key = some values) :
    s.verdict index key values = .ok (true, none) := by
  unfold getReadset at hk
  unfold checkReadsetAtIndex at h
  cases hr : s.txReadSets.lookup index with
  | none =>
    rw [hr] at hk
    cases hk
  | some readset =>
    rw [hr, Option.getD_some] at hk
    rw [hr] at h
    obtain ⟨found, hfold, hfound⟩ := MultiVersionValue.map_eq_ok.mp h
    obtain ⟨hvalid, hsorted⟩ := Prod.mk.inj hfound
    have hfound : found = (true, []) := Prod.ext hvalid (eq_nil_of_sortInts hsorted)
    rw [hfound] at hfold
    exact (verdict_of_foldlM hfold).2 ⟨key, values⟩ (mem_entries_iff.mpr hk)

/-- A loop over entries that pass leaves what was found before. -/
theorem foldlM_of_verdict (h : ∀ e ∈ l, s.verdict index e.1 e.2 = .ok (true, none))
    (found : Bool × List ℕ) : l.foldlM (s.checkRead index) found = .ok found := by
  induction l with
  | nil => rfl
  | cons e l ih =>
    have hround : s.checkRead index found e = .ok found := by
      rw [checkRead, h e List.mem_cons_self]
      exact congrArg Except.ok (Prod.ext (Bool.and_true _) rfl)
    rw [List.foldlM_cons, hround]
    exact ih fun e' he' => h e' (List.mem_cons_of_mem e he')

/-- **When a read set passes the check**: when each of its entries does. -/
theorem checkReadset_eq_valid_iff :
    s.checkReadsetAtIndex index = .ok (true, []) ↔
      ∀ key values, (s.getReadset index).lookup key = some values →
        s.verdict index key values = .ok (true, none) := by
  refine ⟨fun h key values hk => verdict_of_checkReadset h hk, fun h => ?_⟩
  unfold getReadset at h
  unfold checkReadsetAtIndex
  cases hr : s.txReadSets.lookup index with
  | none => rfl
  | some readset =>
    rw [hr, Option.getD_some] at h
    dsimp only
    rw [foldlM_of_verdict (fun e he => h e.1 e.2 (mem_entries_iff.mp he)) (true, [])]
    rfl

/-- **Every recorded value is, up to `bytes.Equal`, what would be fetched now.** -/
theorem fetch_of_checkReadset (h : s.checkReadsetAtIndex index = .ok (true, []))
    (hk : (s.getReadset index).lookup key = some values) :
    ∃ value fetched, values = [value] ∧ s.fetch index key = .ok fetched ∧
      bytesEqual fetched value = true :=
  fetch_of_verdict (verdict_of_checkReadset h hk)

/-! ### Exactness -/

/-- A recorded value that the check confuses with the present one: `nil` was read, and the
latest earlier version, or without one the parent store, has the empty value; or the empty
value was read, and the key has neither an earlier version nor a parent entry. -/
def Ambiguous (s : Store π) (index : ℕ) (key : Bytes) (value : Slice) : Prop :=
  (value = none ∧ ∃ latest, s.getLatestBeforeIndex index key = .ok (some latest) ∧
      latest.value = some []) ∨
  (s.getLatestBeforeIndex index key = .ok none ∧
    (value = none ∧ BasicKVStore.get s.parentStore key = .ok (some []) ∨
      value = some [] ∧ BasicKVStore.get s.parentStore key = .ok none))

/-- An entry that passes and is not ambiguous holds the value that would be fetched. -/
theorem fetch_eq_of_not_ambiguous (h : s.verdict index key [value] = .ok (true, none))
    (hamb : ¬ s.Ambiguous index key value) : s.fetch index key = .ok value := by
  obtain ⟨value', hvalues, hcases⟩ := verdict_eq_valid_iff.mp h
  obtain rfl : value = value' := by simpa using hvalues
  rcases hcases with ⟨hnone, parentVal, hparent, heq⟩ | ⟨latest, hlatest, hest, hvalue⟩
  · rw [fetch, hnone]
    rcases bytesEqual_cases heq with rfl | ⟨rfl, rfl⟩ | ⟨rfl, rfl⟩
    · exact hparent
    · exact absurd (.inr ⟨hnone, .inr ⟨rfl, hparent⟩⟩) hamb
    · exact absurd (.inr ⟨hnone, .inl ⟨rfl, hparent⟩⟩) hamb
  · rw [fetch, hlatest]
    simp only [hest, Bool.false_eq_true, if_false, Except.ok.injEq]
    rcases hvalue with ⟨hl, rfl⟩ | ⟨⟨b, hb⟩, heq⟩
    · exact hl
    · rcases bytesEqual_cases heq with hsame | ⟨hl, -⟩ | ⟨hl, rfl⟩
      · exact hsame
      · rw [hb] at hl
        cases hl
      · exact absurd (.inl ⟨rfl, latest, hlatest, hl⟩) hamb

/-- An ambiguous value is not the one that would be fetched. -/
theorem fetch_ne_of_ambiguous (hamb : s.Ambiguous index key value) :
    s.fetch index key ≠ .ok value := by
  intro hfetch
  rcases hamb with ⟨rfl, latest, hlatest, hl⟩ | ⟨hnone, ⟨rfl, hparent⟩ | ⟨rfl, hparent⟩⟩
  · rw [fetch, hlatest] at hfetch
    cases hest : latest.isEstimate with
    | true => simp [hest] at hfetch
    | false => simp [hest, hl] at hfetch
  · rw [fetch, hnone] at hfetch
    cases hparent.symm.trans hfetch
  · rw [fetch, hnone] at hfetch
    cases hparent.symm.trans hfetch

end Store

variable {key : Bytes} {value : Slice}

/-- What a fresh version indexed store reads is what is fetched. -/
theorem run_get_fresh {π : Type} [KVStore π] {s : Store π} (index : ℕ) (inc : ℤ)
    (ch : Channel Abort) (totalTask : ℕ) (hkey : ValidKey key) :
    (∃ m, (VersionIndexedStore.get key).run
        (⟨newVersionIndexedStore index inc ch totalTask, s⟩ : Mvkv (Store π)) = .ok value m) ↔
      s.fetch index key = .ok value := by
  constructor
  · rintro ⟨⟨store', s'⟩, h⟩
    exact ((run_get_of_absent hkey rfl rfl).mp h).1
  · intro h
    exact ⟨_, (run_get_of_absent hkey rfl rfl).mpr ⟨h, rfl, rfl⟩⟩

/-- `Has` reads as `Get` does. -/
theorem run_has_of_get {μ : Type} [MultiVersionStore μ] {m m' : Mvkv μ}
    (h : (VersionIndexedStore.get key).run m = .ok value m') :
    (VersionIndexedStore.has key).run m = .ok value.isSome m' := by
  rw [VersionIndexedStore.has, run_bind_of_ok h]
  rfl

/-- **Exactness of read set validation.** Take a read set that executions at an index have
recorded and that passes the check without objections. A fresh version indexed store at the
same index reads for every key the recorded value, and its `Has` answers as it did during
the recorded execution, exactly when no entry is ambiguous. -/
theorem Store.checkReadset_exact_iff {π : Type} [KVStore π] {index : ℕ}
    {store : VersionIndexedStore} (hstore : Recording π index store) {s : Store π}
    (hread : s.getReadset index = store.readset)
    (hcheck : s.checkReadsetAtIndex index = .ok (true, [])) (inc : ℤ) (ch : Channel Abort)
    (totalTask : ℕ) :
    (∀ k values, store.readset.lookup k = some values → ∃ value, values = [value] ∧
      ∃ m, (VersionIndexedStore.get k).run
          (⟨newVersionIndexedStore index inc ch totalTask, s⟩ : Mvkv (Store π)) = .ok value m ∧
        (VersionIndexedStore.has k).run
          (⟨newVersionIndexedStore index inc ch totalTask, s⟩ : Mvkv (Store π)) =
            .ok value.isSome m) ↔
    ∀ k value, store.readset.lookup k = some [value] → ¬ s.Ambiguous index k value := by
  have hvalid : ∀ {k values}, store.readset.lookup k = some values → ValidKey k :=
    fun hk => hstore.valid _ (mem_iff_exists_lookup.mpr ⟨_, hk⟩)
  constructor
  · intro h k value hk hamb
    obtain ⟨value', hvalues, m, hget, -⟩ := h k _ hk
    obtain rfl : value = value' := by simpa using hvalues
    exact Store.fetch_ne_of_ambiguous hamb
      ((run_get_fresh index inc ch totalTask (hvalid hk)).mp ⟨m, hget⟩)
  · intro h k values hk
    have hverdict := Store.verdict_of_checkReadset hcheck (by rw [hread]; exact hk)
    obtain ⟨value, rfl, -⟩ := Store.verdict_eq_valid_iff.mp hverdict
    have hfetch := Store.fetch_eq_of_not_ambiguous hverdict (h k value hk)
    obtain ⟨m, hget⟩ := (run_get_fresh index inc ch totalTask (hvalid hk)).mpr hfetch
    exact ⟨value, rfl, m, hget, run_has_of_get hget⟩

/-- A transaction that reads the write of the one before it, and publishes. -/
theorem Store.checkReadset_exact_iff_run :
    ∃ (s₁ s₂ : Store DbAdapter) (store : VersionIndexedStore),
    (Store.setWriteset false 0 0 (AList.singleton [1] (some [7])) 2).run
      (newMultiVersionStore DbAdapter.empty) = .ok ⟨⟩ s₁ ∧
    (VersionIndexedStore.get [1]).run
      (⟨newVersionIndexedStore 1 0 ⟨1, []⟩ 2, s₁⟩ : Mvkv (Store DbAdapter)) =
        .ok (some [7]) ⟨store, s₁⟩ ∧
    (VersionIndexedStore.writeToMultiVersionStore false).run
      (⟨store, s₁⟩ : Mvkv (Store DbAdapter)) = .ok ⟨⟩ ⟨store, s₂⟩ ∧
    ((∀ k values, store.readset.lookup k = some values → ∃ value, values = [value] ∧
      ∃ m, (VersionIndexedStore.get k).run
          (⟨newVersionIndexedStore 1 0 ⟨1, []⟩ 2, s₂⟩ : Mvkv (Store DbAdapter)) = .ok value m ∧
        (VersionIndexedStore.has k).run
          (⟨newVersionIndexedStore 1 0 ⟨1, []⟩ 2, s₂⟩ : Mvkv (Store DbAdapter)) =
            .ok value.isSome m) ↔
    ∀ k value, store.readset.lookup k = some [value] → ¬ s₂.Ambiguous 1 k value) := by
  refine ⟨_, _, _, rfl, and_of_run rfl fun hget => ⟨rfl, ?_⟩⟩
  exact Store.checkReadset_exact_iff (.get (.new 0 ⟨1, []⟩ 2) hget) rfl rfl 0 ⟨1, []⟩ 2

/-- **The check confuses absent and empty**: a transaction reads the empty value that an
earlier one has written. When that one is executed again without the write, the key is
absent, but the read set still passes. -/
theorem Store.checkReadset_confuses_absent_and_empty :
    ∃ (s₁ s₂ s₃ : Store DbAdapter) (store : VersionIndexedStore) (m : Mvkv (Store DbAdapter)),
    (Store.setWriteset false 0 0 (AList.singleton [1] (some [])) 2).run
      (newMultiVersionStore DbAdapter.empty) = .ok ⟨⟩ s₁ ∧
    (VersionIndexedStore.get [1]).run
      (⟨newVersionIndexedStore 1 0 ⟨1, []⟩ 2, s₁⟩ : Mvkv (Store DbAdapter)) =
        .ok (some []) ⟨store, s₁⟩ ∧
    (VersionIndexedStore.writeToMultiVersionStore false).run
      (⟨store, s₁⟩ : Mvkv (Store DbAdapter)) = .ok ⟨⟩ ⟨store, s₂⟩ ∧
    (Store.setWriteset false 0 1 ∅ 2).run s₂ = .ok ⟨⟩ s₃ ∧
    s₃.checkReadsetAtIndex 1 = .ok (true, []) ∧
    (VersionIndexedStore.get [1]).run
      (⟨newVersionIndexedStore 1 0 ⟨1, []⟩ 2, s₃⟩ : Mvkv (Store DbAdapter)) = .ok none m ∧
    (VersionIndexedStore.has [1]).run
      (⟨newVersionIndexedStore 1 0 ⟨1, []⟩ 2, s₃⟩ : Mvkv (Store DbAdapter)) = .ok false m :=
  ⟨_, _, _, _, _, rfl, rfl, rfl, rfl, rfl, rfl, rfl⟩

end MelodiaStore
