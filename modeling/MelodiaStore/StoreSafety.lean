import MelodiaStore.Bookkeeping
import MelodiaStore.Simulation
import MelodiaStore.WriteBack

/-!
# Panics of the Multi-Version Store

Which sequences of calls on a new `multiversion.Store` go through without a panic. All operations
but `NewKey` take what a key is bound to for a `MultiVersionValue`. Without the environment
variable `versionList`, `NewKey` binds a new key to `nil`, which is none, and no operation ever
replaces it.

## Main results

* `Store.noPanic_iff`: no call panics if and only if `versionList` is set, or no call uses a key
  that `NewKey` was the first to mention.
* `Store.noPanic_fails`: `GetLatest` of a key after its `NewKey`.
-/

namespace MelodiaStore

open MultiVersionValue (exists_map_eq_ok exists_setEstimate_iff fits_newMultiVersionListItem)

/-! ### Calls -/

/-- The calls of a client of the store. -/
inductive VersionCall
  | newKey (key : Bytes)
  | write (op : StoreOp)
  | getLatest (key : Bytes)
  | getLatestBeforeIndex (index : ℕ) (key : Bytes)
  | has (index : ℕ) (key : Bytes)
  | writeLatestToStore

namespace VersionCall

/-- Perform a call; what a lookup returns is dropped. -/
def perform {π : Type} [BasicKVStore π] (versionList : Bool) (totalTask : ℕ) :
    VersionCall → EStateM Panic (Store π) PUnit
  | newKey key => Store.newKey versionList key
  | write op => op.perform versionList totalTask
  | getLatest key => reading fun s => (s.getLatest key).map fun _ => ⟨⟩
  | getLatestBeforeIndex index key =>
    reading fun s => (s.getLatestBeforeIndex index key).map fun _ => ⟨⟩
  | has index key => reading fun s => (s.has index key).map fun _ => ⟨⟩
  | writeLatestToStore => Store.writeLatestToStore

/-- Indices below the number of transactions, and valid keys and values. -/
def Valid (totalTask : ℕ) : VersionCall → Prop
  | newKey key => ValidKey key
  | write op => op.index < totalTask ∧ ∀ ws, op.given = some ws → ∀ k value,
      ws.lookup k = some value → ValidKey k ∧ ∀ v, value = some v → ValidValue v
  | getLatest key => ValidKey key
  | getLatestBeforeIndex index key => index < totalTask ∧ ValidKey key
  | has index key => index < totalTask ∧ ValidKey key
  | writeLatestToStore => True

/-- The call makes the store know the key. -/
def mentions (k : Bytes) : VersionCall → Bool
  | newKey key => decide (key = k)
  | write op => op.given.any fun ws => decide (k ∈ ws)
  | _ => false

def isNewKey : VersionCall → Bool
  | newKey _ => true
  | _ => false

/-- The call loads what the key is bound to. `InvalidateWriteset` loads the keys of a write set
that was written before. -/
def Uses (k : Bytes) : VersionCall → Prop
  | newKey _ => False
  | write op => ∃ ws, op.given = some ws ∧ k ∈ ws
  | getLatest key => k = key
  | getLatestBeforeIndex _ key => k = key
  | has _ key => k = key
  | writeLatestToStore => True

end VersionCall

/-- The first call that mentions a key. -/
def firstMention (calls : List VersionCall) (k : Bytes) : Option VersionCall :=
  calls.find? fun call => call.mentions k

/-- `NewKey` was the first to mention the key. -/
def registeredFirst (calls : List VersionCall) (k : Bytes) : Bool :=
  (firstMention calls k).any VersionCall.isNewKey

theorem firstMention_append (calls : List VersionCall) (call : VersionCall) (k : Bytes) :
    firstMention (calls ++ [call]) k =
      (firstMention calls k).or (if call.mentions k then some call else none) := by
  rw [firstMention, List.find?_append, ← firstMention, List.find?_cons]
  cases call.mentions k <;> rfl

variable {calls : List VersionCall} {call : VersionCall} {k : Bytes} {versionList : Bool}

/-- A key that was mentioned keeps its first mention. -/
theorem firstMention_append_of_some (h : firstMention calls k ≠ none) (call : VersionCall) :
    firstMention (calls ++ [call]) k = firstMention calls k := by
  rw [firstMention_append]
  cases hfirst : firstMention calls k with
  | none => exact absurd hfirst h
  | some first => rfl

theorem firstMention_append_of_not (h : call.mentions k = false) :
    firstMention (calls ++ [call]) k = firstMention calls k := by
  rw [firstMention_append, h]
  exact Option.or_none

/-- Only `NewKey` registers a key. -/
theorem registeredFirst_append (h : call ≠ .newKey k) :
    registeredFirst (calls ++ [call]) k = registeredFirst calls k := by
  unfold registeredFirst
  rw [firstMention_append]
  cases hfirst : firstMention calls k with
  | some first => rfl
  | none =>
    cases call with
    | newKey key =>
      have hne : key ≠ k := fun heq => h (by rw [heq])
      rw [VersionCall.mentions, decide_eq_false hne]
      rfl
    | write op =>
      rw [Option.none_or]
      split <;> rfl
    | getLatest key => rfl
    | getLatestBeforeIndex index key => rfl
    | has index key => rfl
    | writeLatestToStore => rfl

/-! ### When a write returns -/

namespace Store

variable {π : Type} {s : Store π} {index : ℕ} {inc : ℤ} {ws : WriteSet}

/-- The recorded keys of `index` have places. -/
def RecordedFit (s : Store π) (index : ℕ) : Prop :=
  ∀ k ∈ s.writesetKeys index, ∀ item, s.multiVersionMap.lookup k = some item → item.fits 0

theorem exists_run_onVersions {x : EStateM Panic VersionMap PUnit} :
    (∃ s', (onVersions x).run s = .ok ⟨⟩ s') ↔ ∃ m, x.run s.multiVersionMap = .ok ⟨⟩ m := by
  simp only [run_onVersions_eq_ok]
  constructor
  · rintro ⟨-, m, h, -⟩
    exact ⟨m, h⟩
  · rintro ⟨m, h⟩
    exact ⟨_, m, h, rfl⟩

/-- The old keys can be removed. -/
theorem exists_removeOldWriteset (hnodup : (s.writesetKeys index).Nodup)
    (h : s.RecordedFit index) : ∃ s', (removeOldWriteset index ws).run s = .ok ⟨⟩ s' := by
  rw [run_removeOldWriteset, exists_run_onVersions,
    exists_forM_actsAt_iff id (fun k _ => actsAt_removeKey index ws k) (by simpa using hnodup)]
  intro k hk
  dsimp only [id_eq]
  split
  · exact ⟨none, rfl⟩
  · cases hold : s.multiVersionMap.lookup k with
    | none => exact ⟨none, rfl⟩
    | some item =>
      exact exists_map_eq_ok.mpr (MultiVersionValue.exists_remove_iff.mpr (h k hk item hold))

/-- The three steps that `SetWriteset` and `SetEstimatedWriteset` share return when all keys of the
write set that are bound have places. -/
theorem exists_write_iff {α : Type} (fresh : MultiVersionValue) (key : α → Bytes) {l : List α}
    {f : α → Option MultiVersionValue → Except Panic (Option MultiVersionValue)}
    {body : α → EStateM Panic VersionMap PUnit} {record : Store π → Store π}
    (hnodup : (s.writesetKeys index).Nodup) (hrecorded : s.RecordedFit index)
    (hkeys : l.map key = ws.keys) (hbody : ∀ a ∈ l, ActsAt (key a) (f a) (body a))
    (hf : ∀ a ∈ l, ∀ old, (∃ r, f a old = .ok r) ↔ (old.getD fresh).fits 0)
    (hfresh : fresh.fits 0) :
    (∃ s', (do removeOldWriteset index ws; onVersions (forM l body); modify record :
        EStateM Panic (Store π) PUnit).run s = .ok ⟨⟩ s') ↔
      ∀ k ∈ ws, ∀ item, s.multiVersionMap.lookup k = some item → item.fits 0 := by
  obtain ⟨t, ht⟩ : ∃ t, (removeOldWriteset index ws).run s = .ok ⟨⟩ t :=
    exists_removeOldWriteset hnodup hrecorded
  -- the removal leaves the keys of the new write set alone
  have hsame : ∀ a ∈ l, t.multiVersionMap.lookup (key a) = s.multiVersionMap.lookup (key a) := by
    intro a ha
    refine (removeOldWriteset_ok hnodup ht).2.2 (key a) (.inl ?_)
    rw [AList.mem_keys, ← hkeys]
    exact List.mem_map_of_mem ha
  have hloop : (∃ u, (onVersions (forM l body)).run t = .ok ⟨⟩ u) ↔
      ∀ a ∈ l, ((s.multiVersionMap.lookup (key a)).getD fresh).fits 0 := by
    rw [exists_run_onVersions,
      exists_forM_actsAt_iff key hbody (by rw [hkeys]; exact ws.keys_nodup)]
    exact forall₂_congr fun a ha => by rw [hf a ha, hsame a ha]
  rw [run_bind_of_ok ht]
  constructor
  · rintro ⟨s', h⟩ k hk item hitem
    obtain ⟨⟨⟩, u, hu, -⟩ := run_bind_eq_ok.mp h
    rw [AList.mem_keys, ← hkeys] at hk
    obtain ⟨a, ha, rfl⟩ := List.mem_map.mp hk
    have hfits := hloop.mp ⟨u, hu⟩ a ha
    rwa [hitem] at hfits
  · intro h
    obtain ⟨u, hu⟩ := hloop.mpr fun a ha => by
      cases hitem : s.multiVersionMap.lookup (key a) with
      | none => exact hfresh
      | some item =>
        refine h (key a) ?_ item hitem
        rw [AList.mem_keys, ← hkeys]
        exact List.mem_map_of_mem ha
    exact ⟨record u, by rw [run_bind_of_ok hu]; rfl⟩

section

variable (hnodup : (s.writesetKeys index).Nodup) (hrecorded : s.RecordedFit index) {totalTask : ℕ}
include hnodup hrecorded

/-- **When `SetWriteset` returns.** -/
theorem exists_setWriteset_iff {versionList : Bool} (hindex : index < totalTask)
    (hvalid : ∀ k v, ws.lookup k = some (some v) → ValidValue v) :
    (∃ s', (setWriteset versionList index inc ws totalTask).run s = .ok ⟨⟩ s') ↔
      ∀ k ∈ ws, ∀ item, s.multiVersionMap.lookup k = some item → item.fits 0 := by
  refine exists_write_iff (newVersions versionList totalTask) (fun e => e.1) hnodup hrecorded rfl
    (fun e _ => actsAt_writeKey versionList index inc totalTask e) (fun e he old => ?_)
    (fits_newVersions (Nat.zero_lt_of_lt hindex))
  rw [exists_map_eq_ok, exists_setOrDelete_iff]
  exact and_iff_left fun v hv => hvalid e.1 v (hv ▸ mem_entries_iff.mp he)

/-- **When `SetEstimatedWriteset` returns.** -/
theorem exists_setEstimatedWriteset_iff :
    (∃ s', (setEstimatedWriteset index inc ws).run s = .ok ⟨⟩ s') ↔
      ∀ k ∈ ws, ∀ item, s.multiVersionMap.lookup k = some item → item.fits 0 := by
  refine exists_write_iff (.list (newMultiVersionListItem estimatedSize)) id hnodup hrecorded
    (List.map_id _) (fun k _ => actsAt_estimateKey estimatedSize index inc k) (fun k hk old => ?_)
    (fits_newMultiVersionListItem.mpr (by decide))
  rw [exists_map_eq_ok, exists_setEstimate_iff]

/-- `InvalidateWriteset` returns when the keys it goes over have places. -/
theorem exists_invalidateWriteset (hindex : index < totalTask) :
    ∃ s', (invalidateWriteset index inc totalTask).run s = .ok ⟨⟩ s' := by
  rw [run_invalidateWriteset, exists_run_onVersions, exists_forM_actsAt_iff id
    (fun k _ => actsAt_estimateKey totalTask index inc k) (by simpa using hnodup)]
  intro k hk
  have hfits : ((s.multiVersionMap.lookup k).getD
      (.list (newMultiVersionListItem totalTask))).fits 0 := by
    cases hitem : s.multiVersionMap.lookup k with
    | none =>
      exact fits_newMultiVersionListItem.mpr (Nat.zero_lt_of_lt hindex)
    | some item => exact hrecorded k hk item hitem
  exact exists_map_eq_ok.mpr (exists_setEstimate_iff.mpr hfits)

end

/-- A round of `WriteLatestToStore` that returns has found versions to choose from. -/
theorem of_run_writeLatestKey [BasicKVStore π] {key : Bytes} {s' : Store π}
    (h : (writeLatestKey key).run s = .ok ⟨⟩ s') :
    s'.multiVersionMap = s.multiVersionMap ∧ s.multiVersionMap.lookup key ≠ some .nilValue := by
  rw [writeLatestKey, run_bind_of_ok (EStateM.run_get s)] at h
  cases hval : s.multiVersionMap.lookup key with
  | none =>
    rw [hval] at h
    obtain ⟨-, rfl⟩ := EStateM.Result.ok.inj h
    exact ⟨rfl, (Option.some_ne_none _).symm⟩
  | some val =>
    rw [hval] at h
    dsimp only at h
    obtain ⟨latest, hlatest, h⟩ := run_ofExcept_bind_eq_ok.mp h
    refine ⟨?_, ?_⟩
    · cases latest with
      | none =>
        obtain ⟨-, rfl⟩ := EStateM.Result.ok.inj h
        rfl
      | some e =>
        obtain ⟨p, -, rfl⟩ := run_zoom_eq_ok.mp h
        rfl
    · rintro ⟨⟩
      cases hlatest

end Store

/-! ### The invariant of a run -/

/-- `NewKey` has bound the key to `nil`. -/
def Unusable (versionList : Bool) (calls : List VersionCall) (k : Bytes) : Prop :=
  versionList = false ∧ registeredFirst calls k = true

theorem unusable_append (h : call ≠ .newKey k) :
    Unusable versionList (calls ++ [call]) k ↔ Unusable versionList calls k := by
  rw [Unusable, registeredFirst_append h, Unusable]

/-- **The invariant**: the keys of the version map are those that were mentioned. A key that
`NewKey` has bound to `nil` still is, and all others have places; recorded keys are among those.
Versions have valid keys and values. -/
structure Registers {π : Type} (versionList : Bool) (calls : List VersionCall) (s : Store π) :
    Prop where
  absent_iff : ∀ k, s.multiVersionMap.lookup k = none ↔ firstMention calls k = none
  fits : ∀ k item, s.multiVersionMap.lookup k = some item → ¬Unusable versionList calls k →
    item.fits 0
  nil_of_unusable : ∀ k, Unusable versionList calls k →
    s.multiVersionMap.lookup k = some .nilValue
  recorded : ∀ i, ∀ k ∈ s.writesetKeys i,
    firstMention calls k ≠ none ∧ ¬Unusable versionList calls k ∧ ValidKey k
  nodup : ∀ i, (s.writesetKeys i).Nodup
  valid : ∀ k i e, s.slot k i = some e → ValidKey k ∧ ∀ v, e.value = some v → ValidValue v

namespace Registers

variable {π : Type} {versionList : Bool} {calls : List VersionCall} {s s' : Store π}

/-- A new store. -/
theorem new (versionList : Bool) (parent : π) :
    Registers versionList [] (newMultiVersionStore parent) where
  absent_iff _ := iff_of_true rfl rfl
  fits _ _ h := nomatch h
  nil_of_unusable _ h := nomatch h.2
  recorded _ _ h := nomatch h
  nodup _ := List.nodup_nil
  valid _ _ _ h := nomatch h

section

variable (h : Registers versionList calls s)
include h

theorem recordedFit (index : ℕ) : s.RecordedFit index :=
  fun k hk item hitem => h.fits k item hitem (h.recorded index k hk).2.1

/-- A key has places if `NewKey` has not bound it to `nil`. -/
theorem fits_iff (k : Bytes) :
    (∀ item, s.multiVersionMap.lookup k = some item → item.fits 0) ↔
      ¬Unusable versionList calls k := by
  constructor
  · intro hfits hunusable
    exact hfits .nilValue (h.nil_of_unusable k hunusable)
  · intro husable item hitem
    exact h.fits k item hitem husable

/-- A call that changes neither the versions nor the records, and mentions no new key. -/
theorem of_eq {call : VersionCall}
    (hfirst : ∀ k, firstMention (calls ++ [call]) k = firstMention calls k)
    (hmap : s'.multiVersionMap = s.multiVersionMap) (hkeys : s'.txWritesetKeys = s.txWritesetKeys) :
    Registers versionList (calls ++ [call]) s' := by
  have hunusable : ∀ k, Unusable versionList (calls ++ [call]) k ↔
      Unusable versionList calls k := by
    intro k
    rw [Unusable, registeredFirst, hfirst, ← registeredFirst, Unusable]
  have hrecords : ∀ i, s'.writesetKeys i = s.writesetKeys i := fun i => by
    rw [Store.writesetKeys, hkeys, Store.writesetKeys]
  constructor
  · intro k
    rw [hmap, hfirst]
    exact h.absent_iff k
  · intro k item hitem hk
    rw [hmap] at hitem
    exact h.fits k item hitem fun hu => hk ((hunusable k).mpr hu)
  · intro k hk
    rw [hmap]
    exact h.nil_of_unusable k ((hunusable k).mp hk)
  · intro i k hk
    rw [hrecords] at hk
    rw [hfirst, hunusable]
    exact h.recorded i k hk
  · intro i
    rw [hrecords]
    exact h.nodup i
  · intro k i e he
    rw [Store.slot, hmap] at he
    exact h.valid k i e he

/-- `NewKey` keeps the invariant. -/
theorem newKey {key : Bytes} (hrun : (Store.newKey versionList key).run s = .ok ⟨⟩ s') :
    Registers versionList (calls ++ [.newKey key]) s' := by
  have hother : ∀ k, k ≠ key → firstMention (calls ++ [.newKey key]) k = firstMention calls k :=
    fun k hk => firstMention_append_of_not (decide_eq_false (Ne.symm hk))
  rw [Store.newKey, EStateM.run_modify] at hrun
  obtain ⟨-, rfl⟩ := EStateM.Result.ok.inj hrun
  cases hkey : s.multiVersionMap.lookup key with
  | some item =>
    refine h.of_eq (fun k => ?_) rfl rfl
    by_cases hk : k = key
    · subst hk
      refine firstMention_append_of_some (fun hnone => ?_) _
      rw [← h.absent_iff, hkey] at hnone
      cases hnone
    · exact hother k hk
  | none =>
    have hfresh : firstMention calls key = none := (h.absent_iff key).mp hkey
    have hfirst : firstMention (calls ++ [.newKey key]) key = some (.newKey key) := by
      rw [firstMention_append, hfresh, VersionCall.mentions, decide_eq_true rfl]
      rfl
    have hunusable : ∀ k, k ≠ key → (Unusable versionList (calls ++ [.newKey key]) k ↔
        Unusable versionList calls k) := fun k hk =>
      unusable_append fun heq => hk (VersionCall.newKey.inj heq).symm
    have hne : ∀ k, firstMention calls k ≠ none → k ≠ key := by
      rintro k hk rfl
      exact hk hfresh
    constructor
    · intro k
      rw [lookup_insert_ite]
      by_cases hk : k = key
      · subst hk
        rw [if_pos rfl, hfirst]
        exact iff_of_false (Option.some_ne_none _) (Option.some_ne_none _)
      · rw [if_neg hk, hother k hk]
        exact h.absent_iff k
    · intro k item hitem husable
      rw [lookup_insert_ite] at hitem
      by_cases hk : k = key
      · subst hk
        rw [if_pos rfl] at hitem
        obtain rfl := Option.some.inj hitem
        cases versionList with
        | true => trivial
        | false => exact absurd ⟨rfl, by rw [registeredFirst, hfirst]; rfl⟩ husable
      · rw [if_neg hk] at hitem
        exact h.fits k item hitem fun hu => husable ((hunusable k hk).mpr hu)
    · intro k hu
      rw [lookup_insert_ite]
      by_cases hk : k = key
      · rw [if_pos hk, hu.1]
        rfl
      · rw [if_neg hk]
        exact h.nil_of_unusable k ((hunusable k hk).mp hu)
    · intro i k hk
      obtain ⟨hmentioned, husable⟩ := h.recorded i k hk
      have hk := hne k hmentioned
      rw [hother k hk, hunusable k hk]
      exact ⟨hmentioned, husable⟩
    · exact h.nodup
    · intro k i e he
      simp only [Store.slot, lookup_insert_ite] at he
      by_cases hk : k = key
      · rw [if_pos hk] at he
        cases versionList <;> cases he
      · rw [if_neg hk] at he
        exact h.valid k i e he

/-- A write keeps the invariant. -/
theorem writeStep {index : ℕ} {fresh : MultiVersionValue} {keys : List Bytes}
    {v : Bytes → ℕ → ValueItem} {op : StoreOp} (hstep : WriteStep index fresh keys v s s')
    (hfits : fresh.fits 0) (hfresh : ∀ i, fresh.slot i = none) (hnodup : keys.Nodup)
    (hmentions : ∀ k, (VersionCall.write op).mentions k = true → k ∈ keys)
    (hkeys : ∀ k ∈ keys, firstMention (calls ++ [.write op]) k ≠ none ∧
      ¬Unusable versionList calls k ∧ ValidKey k)
    (hv : ∀ k ∈ keys, ∀ c b, (v k c).value = some b → ValidValue b) :
    Registers versionList (calls ++ [.write op]) s' := by
  have hunusable : ∀ k, Unusable versionList (calls ++ [.write op]) k ↔
      Unusable versionList calls k := fun k => unusable_append nofun
  have hother : ∀ k, k ∉ keys → firstMention (calls ++ [.write op]) k = firstMention calls k :=
    fun k hk => firstMention_append_of_not
      (Bool.eq_false_iff.mpr fun hmention => hk (hmentions k hmention))
  constructor
  · intro k
    by_cases hk : k ∈ keys
    · obtain ⟨item', -, hnew⟩ := hstep.written k hk
      rw [hnew]
      exact iff_of_false (Option.some_ne_none _) (hkeys k hk).1
    · rw [hother k hk, ← h.absent_iff]
      exact hstep.lookup_eq_none_of_not_written hk
  · intro k item' hitem' husable
    rw [hunusable] at husable
    by_cases hk : k ∈ keys
    · rw [(hstep.exists_of_written hk hitem').1]
      cases hitem : s.multiVersionMap.lookup k with
      | none => exact hfits
      | some item => exact h.fits k item hitem husable
    · obtain ⟨item, hitem, hsame, -⟩ := hstep.exists_of_not_written hk hitem'
      exact (hsame 0).mpr (h.fits k item hitem husable)
  · intro k hu
    rw [hunusable] at hu
    rw [hstep.kept k (fun hk => (hkeys k hk).2.1 hu) fun hk => (h.recorded index k hk).2.1 hu]
    exact h.nil_of_unusable k hu
  · intro i k hk
    rw [hstep.writesetKeys_eq] at hk
    rw [hunusable]
    split at hk
    · exact hkeys k hk
    · obtain ⟨hmentioned, husable⟩ := h.recorded i k hk
      rw [firstMention_append_of_some hmentioned]
      exact ⟨hmentioned, husable⟩
  · intro i
    rw [hstep.writesetKeys_eq]
    split
    · exact hnodup
    · exact h.nodup i
  · intro k i e he
    obtain ⟨item', hitem', he⟩ := Option.bind_eq_some_iff.mp he
    by_cases hk : k ∈ keys
    · rcases (hstep.exists_of_written hk hitem').2 i e he with ⟨c, rfl⟩ | he
      · exact ⟨(hkeys k hk).2.2, hv k hk c⟩
      · cases hitem : s.multiVersionMap.lookup k with
        | none =>
          rw [hitem, Option.getD_none, hfresh] at he
          cases he
        | some item =>
          rw [hitem, Option.getD_some] at he
          exact h.valid k i e (by rw [Store.slot, hitem]; exact he)
    · obtain ⟨item, hitem, -, hslot⟩ := hstep.exists_of_not_written hk hitem'
      exact h.valid k i e (by rw [Store.slot, hitem]; exact hslot i e he)

end

section Given

variable {op : StoreOp} {ws : WriteSet}

/-- An operation that is given a write set mentions its keys. -/
theorem mentions_iff_of_given (hws : op.given = some ws) {k : Bytes} :
    (VersionCall.write op).mentions k = true ↔ k ∈ sortStrings ws.keys := by
  rw [VersionCall.mentions, hws, mem_sortStrings, ← AList.mem_keys]
  exact decide_eq_true_iff

/-- It needs places for them. -/
theorem fits_iff_of_given (h : Registers versionList calls s) (op : StoreOp)
    (hws : op.given = some ws) :
    (∀ k ∈ ws, ∀ item, s.multiVersionMap.lookup k = some item → item.fits 0) ↔
      ∀ k, (VersionCall.write op).Uses k → ¬Unusable versionList calls k := by
  constructor
  · rintro hfits k ⟨ws', hws', hk⟩
    obtain rfl := Option.some.inj (hws.symm.trans hws')
    exact (h.fits_iff k).mp (hfits k hk)
  · intro husable k hk
    exact (h.fits_iff k).mpr (husable k ⟨ws, hws, hk⟩)

/-- What holds of the keys that it records. -/
theorem recorded_of_given {totalTask : ℕ} (hvalid : (VersionCall.write op).Valid totalTask)
    (hws : op.given = some ws)
    (husable : ∀ k, (VersionCall.write op).Uses k → ¬Unusable versionList calls k) :
    ∀ k ∈ sortStrings ws.keys, firstMention (calls ++ [.write op]) k ≠ none ∧
      ¬Unusable versionList calls k ∧ ValidKey k := by
  intro k hk
  have hmem : k ∈ ws := AList.mem_keys.mpr (mem_sortStrings.mp hk)
  obtain ⟨value, hvalue⟩ := mem_iff_exists_lookup.mp hmem
  refine ⟨?_, husable k ⟨ws, hws, hmem⟩, (hvalid.2 ws hws k value hvalue).1⟩
  rw [firstMention_append, (mentions_iff_of_given hws).mpr hk]
  cases firstMention calls k <;> nofun

end Given

/-- What an operation that writes versions needs, and that it keeps the invariant. -/
theorem write (h : Registers versionList calls s) {totalTask : ℕ} {op : StoreOp}
    (hvalid : (VersionCall.write op).Valid totalTask) :
    ((∃ s', (op.perform versionList totalTask).run s = .ok ⟨⟩ s') ↔
        ∀ k, (VersionCall.write op).Uses k → ¬Unusable versionList calls k) ∧
      ∀ s', (op.perform versionList totalTask).run s = .ok ⟨⟩ s' →
        Registers versionList (calls ++ [.write op]) s' := by
  have hnodup : ∀ ws : WriteSet, (sortStrings ws.keys).Nodup := fun ws =>
    (sortStrings_pairwise ws.keys_nodup).imp fun hab => ne_of_lt hab
  cases op with
  | setWriteset index inc ws =>
    have hvalues : ∀ k v, ws.lookup k = some (some v) → ValidValue v := fun k v hk =>
      (hvalid.2 ws rfl k (some v) hk).2 v rfl
    have hiff : (∃ s', (Store.setWriteset versionList index inc ws totalTask).run s =
        .ok ⟨⟩ s') ↔ _ := (Store.exists_setWriteset_iff (h.nodup index) (h.recordedFit index)
      hvalid.1 hvalues).trans (h.fits_iff_of_given (.setWriteset index inc ws) rfl)
    refine ⟨hiff, fun s' hrun => ?_⟩
    refine h.writeStep (Store.setWriteset_ok (h.nodup index) hrun)
      (fits_newVersions (Nat.zero_lt_of_lt hvalid.1)) (slot_newVersions versionList totalTask)
      (hnodup ws) (fun _ => (mentions_iff_of_given rfl).mp)
      (recorded_of_given hvalid rfl (hiff.mp ⟨s', hrun⟩)) fun k hk c b hb => ?_
    cases hvalue : ws.lookup k with
    | none => rw [hvalue] at hb; cases hb
    | some value =>
      rw [hvalue] at hb
      cases value with
      | none => cases hb
      | some v =>
        obtain rfl := Option.some.inj hb
        exact hvalues k v hvalue
  | setEstimatedWriteset index inc ws =>
    have hiff : (∃ s', (Store.setEstimatedWriteset index inc ws).run s = .ok ⟨⟩ s') ↔ _ :=
      (Store.exists_setEstimatedWriteset_iff (h.nodup index) (h.recordedFit index)).trans
        (h.fits_iff_of_given (.setEstimatedWriteset index inc ws) rfl)
    refine ⟨hiff, fun s' hrun => ?_⟩
    exact h.writeStep (Store.setEstimatedWriteset_ok (h.nodup index) hrun)
      (fits_newMultiVersionListItem.mpr (by decide))
      (MultiVersionListItem.slot_newMultiVersionListItem Store.estimatedSize) (hnodup ws)
      (fun _ => (mentions_iff_of_given rfl).mp)
      (recorded_of_given hvalid rfl (hiff.mp ⟨s', hrun⟩)) fun k hk c b hb => nomatch hb
  | invalidateWriteset index inc =>
    refine ⟨iff_of_true (Store.exists_invalidateWriteset (h.nodup index) (h.recordedFit index)
      hvalid.1) ?_, fun s' hrun => ?_⟩
    · rintro k ⟨ws, hws, -⟩
      cases hws
    · refine h.writeStep (Store.invalidateWriteset_ok (h.nodup index) hrun)
        (fits_newMultiVersionListItem.mpr (Nat.zero_lt_of_lt hvalid.1))
        (MultiVersionListItem.slot_newMultiVersionListItem totalTask) (h.nodup index) nofun
        (fun k hk => ?_) fun k hk c b hb => nomatch hb
      obtain ⟨hmentioned, hrest⟩ := h.recorded index k hk
      exact ⟨by rwa [firstMention_append_of_some hmentioned], hrest⟩

/-- `WriteLatestToStore` goes over all keys. -/
theorem writeLatestToStore [LawfulBasicKVStore π] (h : Registers versionList calls s) :
    ((∃ s', Store.writeLatestToStore.run s = .ok ⟨⟩ s') ↔ ∀ k, ¬Unusable versionList calls k) ∧
      ∀ s', Store.writeLatestToStore.run s = .ok ⟨⟩ s' →
        Registers versionList (calls ++ [.writeLatestToStore]) s' := by
  have hback : (∀ k, ¬Unusable versionList calls k) →
      ∃ p', Store.writeLatestToStore.run s = .ok ⟨⟩ { s with parentStore := p' } := by
    intro hall
    have husable : s.Usable := fun k hk => h.fits k .nilValue hk (hall k)
    have hwrites : s.WritesValid := by
      intro k e he
      obtain ⟨i, hi, -⟩ := husable.written_eq_some_iff.mp he
      exact h.valid k i e hi
    obtain ⟨p', hrun, -⟩ := Store.run_writeLatestToStore husable hwrites
    exact ⟨p', hrun⟩
  have hforth : ∀ s', Store.writeLatestToStore.run s = .ok ⟨⟩ s' →
      ∀ k, ¬Unusable versionList calls k := by
    intro s' hrun k hu
    have hnil := h.nil_of_unusable k hu
    rw [Store.writeLatestToStore, run_bind_of_ok (EStateM.run_get s)] at hrun
    -- the keys that have been gone over are not bound to `nil`
    have hkeys : s'.multiVersionMap = s.multiVersionMap ∧
        ∀ key ∈ sortStrings s.multiVersionMap.keys,
          s.multiVersionMap.lookup key ≠ some .nilValue := by
      refine forM_ok_induction (fun pre t => t.multiVersionMap = s.multiVersionMap ∧
        ∀ key ∈ pre, s.multiVersionMap.lookup key ≠ some .nilValue) ⟨rfl, List.forall_mem_nil _⟩ ?_
        hrun
      rintro pre key t t' - ⟨hmap, hpre⟩ hround
      obtain ⟨hmap', hkey⟩ := Store.of_run_writeLatestKey hround
      rw [hmap] at hmap' hkey
      refine ⟨hmap', fun key' hkey' => ?_⟩
      rcases List.mem_append.mp hkey' with hkey' | hkey'
      · exact hpre key' hkey'
      · rwa [List.mem_singleton.mp hkey']
    refine hkeys.2 k ?_ hnil
    rw [mem_sortStrings, ← AList.mem_keys]
    exact mem_iff_exists_lookup.mpr ⟨_, hnil⟩
  refine ⟨⟨?_, fun hall => ?_⟩, fun s' hrun => ?_⟩
  · rintro ⟨s', hrun⟩
    exact hforth s' hrun
  · obtain ⟨p', hrun⟩ := hback hall
    exact ⟨_, hrun⟩
  · obtain ⟨p', hrun'⟩ := hback (hforth s' hrun)
    obtain ⟨-, rfl⟩ := EStateM.Result.ok.inj (hrun'.symm.trans hrun)
    exact h.of_eq (fun k => firstMention_append_of_not rfl) rfl rfl

/-- What a lookup needs, and that it keeps the invariant. -/
theorem lookup (h : Registers versionList calls s) {call : VersionCall} {key : Bytes}
    (hmentions : ∀ k, call.mentions k = false) {f : Store π → Except Panic PUnit}
    (hf : (∃ a, f s = .ok a) ↔ s.multiVersionMap.lookup key ≠ some .nilValue) :
    ((∃ s', (reading f).run s = .ok ⟨⟩ s') ↔ ∀ k, k = key → ¬Unusable versionList calls k) ∧
      ∀ s', (reading f).run s = .ok ⟨⟩ s' → Registers versionList (calls ++ [call]) s' := by
  simp only [run_reading_eq_ok]
  refine ⟨?_, ?_⟩
  · rw [forall_eq, ← h.fits_iff]
    constructor
    · rintro ⟨s', hok, -⟩ item hitem
      refine h.fits key item hitem fun hu => ?_
      exact hf.mp ⟨_, hok⟩ (h.nil_of_unusable key hu)
    · intro hfits
      obtain ⟨⟨⟩, hok⟩ := hf.mpr fun hnil => hfits _ hnil
      exact ⟨s, hok, rfl⟩
  · rintro s' ⟨-, rfl⟩
    exact h.of_eq (fun k => firstMention_append_of_not (hmentions k)) rfl rfl

end Registers

/-! ### No panic -/

/-- A lookup returns unless the key is bound to `nil`. -/
theorem exists_load_iff {α β : Type} (versions : Option MultiVersionValue) (absent : α)
    (g : MultiVersionValue → Except Panic α) (f : α → β)
    (hnil : g .nilValue = .error .nilInterface)
    (hlist : ∀ m, ∃ a, g (.list m) = .ok a) (htree : ∀ t, ∃ a, g (.tree t) = .ok a) :
    (∃ b, Except.map f (match versions with | none => .ok absent | some item => g item) = .ok b) ↔
      versions ≠ some .nilValue := by
  rw [exists_map_eq_ok]
  cases versions with
  | none => exact iff_of_true ⟨absent, rfl⟩ nofun
  | some item =>
    cases item with
    | nilValue =>
      refine iff_of_false ?_ (not_not_intro rfl)
      rintro ⟨a, ha⟩
      cases hnil.symm.trans ha
    | list m => exact iff_of_true (hlist m) nofun
    | tree t => exact iff_of_true (htree t) nofun

/-- **What a call needs**, and that it keeps the invariant. -/
theorem Registers.perform {π : Type} [LawfulBasicKVStore π] {totalTask : ℕ} {s : Store π}
    (h : Registers versionList calls s) (hvalid : call.Valid totalTask) :
    ((∃ s', (call.perform versionList totalTask).run s = .ok ⟨⟩ s') ↔
        ∀ k, call.Uses k → ¬Unusable versionList calls k) ∧
      ∀ s', (call.perform versionList totalTask).run s = .ok ⟨⟩ s' →
        Registers versionList (calls ++ [call]) s' := by
  cases call with
  | newKey key => exact ⟨iff_of_true ⟨_, rfl⟩ nofun, fun s' => h.newKey⟩
  | write op => exact h.write hvalid
  | getLatest key =>
    exact h.lookup (fun _ => rfl) (exists_load_iff (s.multiVersionMap.lookup key) none
      MultiVersionValue.getLatest _ rfl (fun m => ⟨_, rfl⟩) fun t => ⟨_, rfl⟩)
  | getLatestBeforeIndex index key =>
    exact h.lookup (fun _ => rfl) (exists_load_iff (s.multiVersionMap.lookup key) none
      (·.getLatestBeforeIndex index) _ rfl (fun m => ⟨_, rfl⟩) fun t => ⟨_, rfl⟩)
  | has index key =>
    exact h.lookup (fun _ => rfl) (exists_load_iff (s.multiVersionMap.lookup key) false
      (fun item => (item.getLatestBeforeIndex index).map Option.isSome) _ rfl
      (fun m => ⟨_, rfl⟩) fun t => ⟨_, rfl⟩)
  | writeLatestToStore =>
    obtain ⟨hiff, hstep⟩ := h.writeLatestToStore
    refine ⟨hiff.trans ?_, hstep⟩
    exact ⟨fun hall k _ => hall k, fun hall k => hall k trivial⟩

/-- **No call panics** in a sequence of calls on a new store, with valid keys and values and
indices below the number of transactions, if and only if `versionList` is set, or no call uses a
key that `NewKey` was the first to mention. -/
theorem Store.noPanic_iff {π : Type} [LawfulBasicKVStore π] (versionList : Bool) (totalTask : ℕ)
    (calls : List VersionCall) (hvalid : ∀ call ∈ calls, call.Valid totalTask) (parent : π) :
    (∃ s, (forM calls (VersionCall.perform versionList totalTask)).run
        (newMultiVersionStore parent) = .ok ⟨⟩ s) ↔
      versionList = true ∨ ∀ pre call, pre ++ [call] <+: calls →
        ∀ k, call.Uses k → registeredFirst pre k = false := by
  rw [exists_forM_iff (Registers versionList)
    (fun pre call => ∀ k, call.Uses k → ¬Unusable versionList pre k) (.new versionList parent)
    (fun pre call t hcall ht => (ht.perform (hvalid call hcall)).1)
    fun pre call t t' hcall ht => (ht.perform (hvalid call hcall)).2 t']
  cases versionList with
  | true => exact iff_of_true (fun _ _ _ _ _ hu => nomatch hu.1) (.inl rfl)
  | false =>
    rw [or_iff_right nofun]
    refine forall₃_congr fun pre call hpre => forall₂_congr fun k hk => ?_
    rw [Unusable, and_iff_right rfl, Bool.not_eq_true]

/-- One key is registered and another one is used. -/
theorem Store.noPanic_iff_of_other : ∃ s : Store DbAdapter,
    (forM [.newKey [1], .write (.setWriteset 0 0 (AList.singleton [2] (some [7]))), .has 0 [2]]
      (VersionCall.perform false 1)).run (newMultiVersionStore .empty) = .ok ⟨⟩ s := by
  refine (Store.noPanic_iff false 1 _ ?_ DbAdapter.empty).mpr (.inr ?_)
  · simp only [List.forall_mem_cons, VersionCall.Valid, StoreOp.index, StoreOp.given]
    refine ⟨by decide, ⟨Nat.one_pos, ?_⟩, ⟨Nat.one_pos, by decide⟩, List.forall_mem_nil _⟩
    rintro ws ⟨⟩ k value hvalue
    obtain ⟨rfl, rfl⟩ := lookup_singleton_iff.mp hvalue
    exact ⟨by decide, by rintro v ⟨⟩; decide⟩
  · rintro pre call ⟨post, hpre⟩ k hk
    rcases pre with - | ⟨first, - | ⟨second, - | ⟨third, pre⟩⟩⟩
    · rfl
    · simp only [List.cons_append, List.nil_append, List.cons.injEq] at hpre
      obtain ⟨rfl, rfl, -⟩ := hpre
      obtain ⟨ws, ⟨⟩, hws⟩ := hk
      obtain ⟨value, hvalue⟩ := mem_iff_exists_lookup.mp hws
      obtain ⟨rfl, -⟩ := lookup_singleton_iff.mp hvalue
      rfl
    · simp only [List.cons_append, List.nil_append, List.cons.injEq] at hpre
      obtain ⟨rfl, rfl, rfl, -⟩ := hpre
      obtain rfl : k = [2] := hk
      rfl
    · simp at hpre

/-- **A key cannot be looked up after its registration.** -/
theorem Store.noPanic_fails : ∃ s : Store DbAdapter,
    (forM [.newKey [1], .getLatest [1]] (VersionCall.perform false 1)).run
      (newMultiVersionStore .empty) = .error .nilInterface s :=
  ⟨_, rfl⟩

end MelodiaStore
