import MelodiaStore.Interleaving
import MelodiaStore.Store

/-!
# Publishing Concurrently

Two transactions may publish their write sets at the same time, and nothing in
`SetWriteset` (`multiversion/store.go`) keeps their steps apart. This module splits a call
into its atomic steps, the operations on the two `sync.Map`s and those on the versions of a
key, and lets two calls interleave.

A call that finds no versions for a key makes a container and stores it, in two steps. Two
calls that miss the same key both do so; the one that stores second replaces the container
the first one is about to write to, or has already written to, and that write is lost. A
container made earlier for fewer transactions may lose a write as well, since operations
past its end act on its last place.

## Main results

* `Publication.run_alone`: a call whose steps are not interrupted is `Store.setWriteset`.
* `noLostWrite_iff`: two calls never lose a write exactly when no key that is new is
  written by both, the containers that exist have a place for their writers, and no removal
  is clamped to such a place.
* `noLostWrite_fails`: two calls that both write a new key can lose a write.
-/

namespace MelodiaStore

open List (forM_cons mem_cons mem_cons_of_mem mem_cons_self not_mem_nil set_cons_zero suffix_rfl)
open Function (update_of_ne update_self)
open MultiVersionValue (clamp_congr clamp_of_fits exists_remove_iff map_eq_ok remove_ok)

/-! ### The steps of a call -/

/-- The arguments of a call of `SetWriteset`. -/
structure Publication where
  index : ℕ
  incarnation : ℤ
  writeset : WriteSet

/-- Where a call stands. `ref` tells which of the containers stored under a key was
loaded. -/
inductive Publisher
  | start
  /-- the old keys still to be removed -/
  | removing (keys : List Bytes)
  | remove (key : Bytes) (ref : ℕ) (keys : List Bytes)
  /-- the entries of the write set still to be written -/
  | writing (entries : List ((_ : Bytes) × Slice))
  | create (entry : (_ : Bytes) × Slice) (entries : List ((_ : Bytes) × Slice))
  | write (entry : (_ : Bytes) × Slice) (ref : ℕ) (entries : List ((_ : Bytes) × Slice))
  | done

/-- The maps two calls share. `items` lists all containers that have been stored under a
key, oldest first: the map holds the last one, but a call may go on with one that it loaded
before. -/
structure SharedMaps where
  items : Bytes → List MultiVersionValue
  txWritesetKeys : GoMap ℕ (List Bytes)

namespace SharedMaps

/-- The maps of a store. -/
def of (versions : VersionMap) (txWritesetKeys : GoMap ℕ (List Bytes)) : SharedMaps :=
  ⟨fun k => (versions.lookup k).toList, txWritesetKeys⟩

/-- `multiVersionMap.Store`. -/
def store (m : SharedMaps) (key : Bytes) (item : MultiVersionValue) : SharedMaps :=
  { m with items := Function.update m.items key (m.items key ++ [item]) }

/-- A container changes. -/
def put (m : SharedMaps) (key : Bytes) (ref : ℕ) (item : MultiVersionValue) : SharedMaps :=
  { m with items := Function.update m.items key ((m.items key).set ref item) }

/-- The keys recorded for a transaction. -/
def writesetKeys (m : SharedMaps) (index : ℕ) : List Bytes :=
  (m.txWritesetKeys.lookup index).getD []

end SharedMaps

/-- The atomic steps of a call of `SetWriteset`. An operation that panics has no step. -/
inductive Publication.Step (versionList : Bool) (totalTask : ℕ) (p : Publication) :
    Publisher × SharedMaps → Publisher × SharedMaps → Prop
  /-- `removeOldWriteset` takes the recorded keys; those that are rewritten stay. -/
  | loadAndDelete {m : SharedMaps} :
      Step versionList totalTask p (.start, m)
        (.removing ((m.writesetKeys p.index).filter (· ∉ p.writeset)),
          { m with txWritesetKeys := m.txWritesetKeys.erase p.index })
  | loadRemovedMissing {m : SharedMaps} {key : Bytes} {keys : List Bytes}
      (h : m.items key = []) :
      Step versionList totalTask p (.removing (key :: keys), m) (.removing keys, m)
  | loadRemoved {m : SharedMaps} {key : Bytes} {keys : List Bytes} (ref : ℕ)
      (h : (m.items key).length = ref + 1) :
      Step versionList totalTask p (.removing (key :: keys), m) (.remove key ref keys, m)
  | remove {m : SharedMaps} {key : Bytes} {keys : List Bytes} {ref : ℕ}
      {item item' : MultiVersionValue} (hitem : (m.items key)[ref]? = some item)
      (h : item.remove p.index = .ok item') :
      Step versionList totalTask p (.remove key ref keys, m) (.removing keys, m.put key ref item')
  /-- Not an operation on the maps: the loop over the new write set begins. -/
  | removed {m : SharedMaps} :
      Step versionList totalTask p (.removing [], m) (.writing p.writeset.entries, m)
  | loadMissing {m : SharedMaps} {entry : (_ : Bytes) × Slice}
      {entries : List ((_ : Bytes) × Slice)} (h : m.items entry.1 = []) :
      Step versionList totalTask p (.writing (entry :: entries), m) (.create entry entries, m)
  | load {m : SharedMaps} {entry : (_ : Bytes) × Slice} {entries : List ((_ : Bytes) × Slice)}
      (ref : ℕ) (h : (m.items entry.1).length = ref + 1) :
      Step versionList totalTask p (.writing (entry :: entries), m) (.write entry ref entries, m)
  | store {m : SharedMaps} {entry : (_ : Bytes) × Slice} {entries : List ((_ : Bytes) × Slice)} :
      Step versionList totalTask p (.create entry entries, m)
        (.write entry (m.items entry.1).length entries,
          m.store entry.1 (newVersions versionList totalTask))
  | write {m : SharedMaps} {entry : (_ : Bytes) × Slice} {entries : List ((_ : Bytes) × Slice)}
      {ref : ℕ} {item item' : MultiVersionValue} (hitem : (m.items entry.1)[ref]? = some item)
      (h : setOrDelete p.index p.incarnation entry.2 item = .ok item') :
      Step versionList totalTask p (.write entry ref entries, m)
        (.writing entries, m.put entry.1 ref item')
  | record {m : SharedMaps} :
      Step versionList totalTask p (.writing [], m)
        (.done, { m with
          txWritesetKeys := m.txWritesetKeys.insert p.index (sortStrings p.writeset.keys) })

/-! ### A call alone -/

section Alone

variable {versionList : Bool} {totalTask : ℕ} {p : Publication} {π : Type}
  {versions versions' : VersionMap} {w : GoMap ℕ (List Bytes)} {key : Bytes} {keys : List Bytes}
  {entries : List ((_ : Bytes) × Slice)}

/-- Some steps of one call, with no other between them. -/
abbrev Publication.Steps (versionList : Bool) (totalTask : ℕ) (p : Publication) :
    Publisher × SharedMaps → Publisher × SharedMaps → Prop :=
  Relation.ReflTransGen (p.Step versionList totalTask)

theorem SharedMaps.of_insert (versions : VersionMap) (key : Bytes) (item : MultiVersionValue)
    (w : GoMap ℕ (List Bytes)) :
    SharedMaps.of (versions.insert key item) w =
      ⟨Function.update (SharedMaps.of versions w).items key [item], w⟩ := by
  rw [SharedMaps.of, SharedMaps.mk.injEq]
  refine ⟨funext fun k => ?_, rfl⟩
  rw [lookup_insert_ite, Function.update_apply]
  split <;> rfl

theorem SharedMaps.put_of {item item' : MultiVersionValue} (h : versions.lookup key = some item)
    (w : GoMap ℕ (List Bytes)) :
    (SharedMaps.of versions w).put key 0 item' = SharedMaps.of (versions.insert key item') w := by
  rw [SharedMaps.of_insert]
  simp only [SharedMaps.put, SharedMaps.of, h, Option.toList_some, set_cons_zero]

/-- A round of the loop over the old keys is one or two steps. -/
theorem Publication.steps_removeKey (hkey : key ∉ p.writeset)
    (h : (removeKey p.index p.writeset key).run versions = .ok ⟨⟩ versions') :
    p.Steps versionList totalTask (.removing (key :: keys), .of versions w)
      (.removing keys, .of versions' w) := by
  obtain ⟨r, hr, rfl⟩ := (actsAt_removeKey p.index p.writeset key versions versions').mp h
  simp only [if_neg hkey] at hr
  cases hold : versions.lookup key with
  | none =>
    rw [hold] at hr
    obtain rfl := Except.ok.inj hr
    exact .single (.loadRemovedMissing (by simp [SharedMaps.of, hold]))
  | some item =>
    rw [hold] at hr
    obtain ⟨item', hitem, rfl⟩ := map_eq_ok.mp hr
    refine .head (.loadRemoved 0 (by simp [SharedMaps.of, hold])) (.single ?_)
    rw [Option.elim_some, ← SharedMaps.put_of hold]
    exact .remove (by simp [SharedMaps.of, hold]) hitem

/-- A round of the loop over the write set is two or three steps. -/
theorem Publication.steps_writeKey {entry : (_ : Bytes) × Slice}
    (h : (writeKey versionList p.index p.incarnation totalTask entry).run versions =
      .ok ⟨⟩ versions') :
    p.Steps versionList totalTask (.writing (entry :: entries), .of versions w)
      (.writing entries, .of versions' w) := by
  obtain ⟨r, hr, rfl⟩ :=
    (actsAt_writeKey versionList p.index p.incarnation totalTask entry versions versions').mp h
  obtain ⟨item', hitem, rfl⟩ := map_eq_ok.mp hr
  simp only [Option.elim_some] at hitem ⊢
  cases hold : versions.lookup entry.1 with
  | none =>
    rw [hold, Option.getD_none] at hitem
    have hnil : (SharedMaps.of versions w).items entry.1 = [] := by simp [SharedMaps.of, hold]
    refine .head (.loadMissing hnil) (.head .store (.single ?_))
    have hput : ((SharedMaps.of versions w).store entry.1 (newVersions versionList totalTask)).put
        entry.1 0 item' = SharedMaps.of (versions.insert entry.1 item') w := by
      rw [SharedMaps.of_insert]
      simp only [SharedMaps.put, SharedMaps.store, hnil, update_self,
        Function.update_idem, List.nil_append, set_cons_zero]
      rfl
    rw [hnil, ← hput]
    exact .write (by simp [SharedMaps.store, hnil]) hitem
  | some item =>
    rw [hold, Option.getD_some] at hitem
    refine .head (.load 0 (by simp [SharedMaps.of, hold])) (.single ?_)
    rw [← SharedMaps.put_of hold]
    exact .write (by simp [SharedMaps.of, hold]) hitem

/-- The loop over the old keys, in steps. -/
theorem Publication.steps_removeOld
    (h : (forM keys (removeKey p.index p.writeset)).run versions = .ok ⟨⟩ versions') :
    p.Steps versionList totalTask (.removing (keys.filter (· ∉ p.writeset)), .of versions w)
      (.removing [], .of versions' w) := by
  induction keys generalizing versions with
  | nil =>
    obtain ⟨-, rfl⟩ := EStateM.Result.ok.inj h
    exact .refl
  | cons key keys ih =>
    rw [forM_cons, run_bind_eq_ok] at h
    obtain ⟨⟨⟩, t, hkey, hkeys⟩ := h
    by_cases hmem : key ∈ p.writeset
    · rw [List.filter_cons_of_neg (by simpa using hmem)]
      obtain ⟨r, hr, rfl⟩ := (actsAt_removeKey p.index p.writeset key versions t).mp hkey
      simp only [if_pos hmem] at hr
      obtain rfl := Except.ok.inj hr
      exact ih hkeys
    · rw [List.filter_cons_of_pos (by simpa using hmem)]
      exact (Publication.steps_removeKey hmem hkey).trans (ih hkeys)

/-- The loop over the write set, in steps. -/
theorem Publication.steps_writeAll
    (h : (forM entries (writeKey versionList p.index p.incarnation totalTask)).run versions =
      .ok ⟨⟩ versions') :
    p.Steps versionList totalTask (.writing entries, .of versions w)
      (.writing [], .of versions' w) := by
  induction entries generalizing versions with
  | nil =>
    obtain ⟨-, rfl⟩ := EStateM.Result.ok.inj h
    exact .refl
  | cons entry entries ih =>
    rw [forM_cons, run_bind_eq_ok] at h
    obtain ⟨⟨⟩, t, hentry, hentries⟩ := h
    exact (Publication.steps_writeKey hentry).trans (ih hentries)

/-- Taking and removing the old keys, which does nothing when none are recorded. -/
theorem Publication.steps_removeOldWriteset {s s' : Store π}
    (h : (Store.removeOldWriteset p.index p.writeset).run s = .ok ⟨⟩ s') :
    p.Steps versionList totalTask (.start, .of s.multiVersionMap s.txWritesetKeys)
      (.removing [], .of s'.multiVersionMap s'.txWritesetKeys) := by
  rw [Store.run_removeOldWriteset] at h
  obtain ⟨m, hm, rfl⟩ := Store.run_onVersions_eq_ok.mp h
  exact .head .loadAndDelete (Publication.steps_removeOld hm)

/-- **A call alone.** When no step of another call comes between its own, a call does what
`Store.setWriteset` says. -/
theorem Publication.run_alone {s s' : Store π}
    (h : (Store.setWriteset versionList p.index p.incarnation p.writeset totalTask).run s =
      .ok ⟨⟩ s') :
    p.Steps versionList totalTask (.start, .of s.multiVersionMap s.txWritesetKeys)
      (.done, .of s'.multiVersionMap s'.txWritesetKeys) := by
  rw [Store.setWriteset, run_bind_eq_ok] at h
  obtain ⟨⟨⟩, t, hremove, h⟩ := h
  obtain ⟨⟨⟩, u, hloop, h⟩ := run_bind_eq_ok.mp h
  rw [EStateM.run_modify] at h
  obtain ⟨-, rfl⟩ := EStateM.Result.ok.inj h
  obtain ⟨m, hm, rfl⟩ := Store.run_onVersions_eq_ok.mp hloop
  refine (Publication.steps_removeOldWriteset hremove).trans (.head .removed ?_)
  exact (Publication.steps_writeAll hm).trans (.single .record)

/-- A second write set of the index: one of the old keys goes, one stays, and one is new. -/
theorem Publication.run_alone_of_second : ∃ s s' : Store Unit,
    (Store.setWriteset false 0 0 ((AList.singleton [1] (some [7])).insert [2] none) 1).run
        (newMultiVersionStore ()) = .ok ⟨⟩ s ∧
      (Store.setWriteset false 0 1 ((AList.singleton [3] (some [9])).insert [2] (some [8])) 1).run
        s = .ok ⟨⟩ s' ∧
      Publication.Steps false 1 ⟨0, 1, (AList.singleton [3] (some [9])).insert [2] (some [8])⟩
        (.start, .of s.multiVersionMap s.txWritesetKeys)
        (.done, .of s'.multiVersionMap s'.txWritesetKeys) :=
  ⟨_, _, rfl, rfl, Publication.run_alone (p := ⟨0, 1, _⟩) rfl⟩

end Alone

/-! ### Places -/

section Places

variable {versionList : Bool} {totalTask : ℕ} {π : Type} {s s' : Store π} {p : Publication}
  {m : SharedMaps} {k : Bytes} {item : MultiVersionValue}

/-- The container a call finds for a key, or makes for it. -/
def Store.container (versionList : Bool) (totalTask : ℕ) (s : Store π) (k : Bytes) :
    MultiVersionValue :=
  (s.multiVersionMap.lookup k).getD (newVersions versionList totalTask)

/-- A loop whose rounds keep the places of the containers: each of them stays, and every
round at its key has met a container with the same places. -/
theorem forM_keeps_fits {α : Type} (key : α → Bytes)
    {f : α → Option MultiVersionValue → Except Panic (Option MultiVersionValue)}
    {body : α → EStateM Panic VersionMap PUnit} {l : List α} {versions versions' : VersionMap}
    (hbody : ∀ a ∈ l, ActsAt (key a) (f a) (body a))
    (hf : ∀ a ∈ l, ∀ item r, f a (some item) = .ok r → ∀ j, (r.getD item).fits j ↔ item.fits j)
    (h : (forM l body).run versions = .ok ⟨⟩ versions') (hk : versions.lookup k = some item) :
    (∃ item', versions'.lookup k = some item' ∧ ∀ j, item'.fits j ↔ item.fits j) ∧
      ∀ a ∈ l, key a = k → ∃ item' r, f a (some item') = .ok r ∧
        ∀ j, item'.fits j ↔ item.fits j := by
  induction l generalizing versions item with
  | nil =>
    obtain ⟨-, rfl⟩ := EStateM.Result.ok.inj h
    exact ⟨⟨item, hk, fun _ => Iff.rfl⟩, fun a ha => absurd ha not_mem_nil⟩
  | cons a l ih =>
    rw [forM_cons, run_bind_eq_ok] at h
    obtain ⟨⟨⟩, t, ha, hl⟩ := h
    obtain ⟨r, hr, ht⟩ := (hbody a mem_cons_self).get_eq keyed_goMap ha
    -- the container the remaining rounds start from
    have hnext : ∃ item₁, t.lookup k = some item₁ ∧ ∀ j, item₁.fits j ↔ item.fits j := by
      by_cases hka : k = key a
      · subst hka
        simp only [hk] at hr ht
        refine ⟨r.getD item, ?_, hf a mem_cons_self item r hr⟩
        rw [ht, if_pos rfl]
        cases r <;> rfl
      · exact ⟨item, by simpa only [if_neg hka, hk] using ht k, fun _ => Iff.rfl⟩
    obtain ⟨item₁, hk₁, hfits₁⟩ := hnext
    obtain ⟨⟨item', hk', hfits'⟩, hrest⟩ :=
      ih (fun b hb => hbody b (mem_cons_of_mem a hb))
        (fun b hb => hf b (mem_cons_of_mem a hb)) hl hk₁
    refine ⟨⟨item', hk', fun j => (hfits' j).trans (hfits₁ j)⟩, fun b hb hbk => ?_⟩
    rcases mem_cons.mp hb with rfl | hb
    · subst hbk
      simp only [hk] at hr
      exact ⟨item, r, hr, fun _ => Iff.rfl⟩
    · obtain ⟨item'', r', hr', hfits''⟩ := hrest b hb hbk
      exact ⟨item'', r', hr', fun j => (hfits'' j).trans (hfits₁ j)⟩

/-- The call cannot panic: every container it meets has a place, and every value is valid. -/
structure Publication.Sturdy (versionList : Bool) (totalTask : ℕ) (s : Store π)
    (p : Publication) : Prop where
  fits : ∀ k, k ∈ p.writeset ∨ k ∈ s.writesetKeys p.index →
    (s.container versionList totalTask k).fits 0
  valid : ∀ e ∈ p.writeset.entries, ∀ v, e.2 = some v → ValidValue v

/-- The places of the containers that `removeOldWriteset` leaves, and those it removes
from. -/
theorem Store.fits_of_removeOldWriteset {index : ℕ} {ws : WriteSet}
    (h : (Store.removeOldWriteset index ws).run s = .ok ⟨⟩ s')
    (hk : s.multiVersionMap.lookup k = some item) :
    (∃ item', s'.multiVersionMap.lookup k = some item' ∧ ∀ j, item'.fits j ↔ item.fits j) ∧
      (k ∈ s.writesetKeys index → k ∉ ws → item.fits 0) := by
  rw [Store.run_removeOldWriteset] at h
  obtain ⟨m, hm, rfl⟩ := Store.run_onVersions_eq_ok.mp h
  have hround : ∀ k' ∈ s.writesetKeys index, ∀ (item : MultiVersionValue) r,
      (if k' ∈ ws then Except.ok none else (item.remove index).map some) = .ok r →
        ∀ j, (r.getD item).fits j ↔ item.fits j := by
    intro k' _ item r hr
    split at hr
    · obtain rfl := Except.ok.inj hr
      exact fun _ => Iff.rfl
    · obtain ⟨item'', hitem, rfl⟩ := map_eq_ok.mp hr
      exact (remove_ok hitem).fits_iff
  obtain ⟨hkeep, hmet⟩ :=
    forM_keeps_fits id (fun k _ => actsAt_removeKey index ws k) hround hm hk
  refine ⟨hkeep, fun hmem hws => ?_⟩
  obtain ⟨item', r, hr, hfits⟩ := hmet k hmem rfl
  simp only [if_neg hws] at hr
  obtain ⟨item'', hitem, -⟩ := map_eq_ok.mp hr
  exact (hfits 0).mp (exists_remove_iff.mp ⟨item'', hitem⟩)

/-- **A call that returns alone is sturdy.** -/
theorem Publication.sturdy_of_run (htask : 0 < totalTask)
    (h : (Store.setWriteset versionList p.index p.incarnation p.writeset totalTask).run s =
      .ok ⟨⟩ s') : p.Sturdy versionList totalTask s := by
  refine ⟨fun k hk => ?_, fun e he v hv => ?_⟩
  · unfold Store.container
    cases hlook : s.multiVersionMap.lookup k with
    | none => exact fits_newVersions htask
    | some item =>
      rw [Option.getD_some]
      rw [Store.setWriteset, run_bind_eq_ok] at h
      obtain ⟨⟨⟩, t, hremove, h⟩ := h
      obtain ⟨⟨item₁, hk₁, hfits₁⟩, hold⟩ := Store.fits_of_removeOldWriteset hremove hlook
      by_cases hws : k ∈ p.writeset
      · rw [run_bind_eq_ok] at h
        obtain ⟨⟨⟩, u, hloop, -⟩ := h
        obtain ⟨m', hm', -⟩ := Store.run_onVersions_eq_ok.mp hloop
        obtain ⟨v, hv⟩ := mem_iff_exists_lookup.mp hws
        have hround : ∀ e ∈ p.writeset.entries, ∀ (item : MultiVersionValue) r,
            (setOrDelete p.index p.incarnation e.2 item).map some = .ok r →
              ∀ j, (r.getD item).fits j ↔ item.fits j := by
          intro e _ item r hr
          obtain ⟨item'', hitem, rfl⟩ := map_eq_ok.mp hr
          exact (setOrDelete_ok hitem).2.fits_iff
        obtain ⟨-, hmet⟩ := forM_keeps_fits (fun e => e.1)
          (fun e _ => actsAt_writeKey versionList p.index p.incarnation totalTask e)
          hround hm' hk₁
        obtain ⟨item₂, r, hr, hfits₂⟩ := hmet ⟨k, v⟩ (mem_entries_iff.mpr hv) rfl
        obtain ⟨item₃, hitem, -⟩ := map_eq_ok.mp hr
        exact (hfits₁ 0).mp ((hfits₂ 0).mp (exists_setOrDelete_iff.mp ⟨item₃, hitem⟩).1)
      · exact hold (hk.resolve_left hws) hws
  · obtain ⟨k, value⟩ := e
    obtain rfl : value = some v := hv
    exact Store.valid_of_setWriteset h (mem_entries_iff.mp he)

end Places

/-! ### What a call can always do -/

@[simp] theorem SharedMaps.items_put_self (m : SharedMaps) (key : Bytes) (ref : ℕ)
    (item : MultiVersionValue) : (m.put key ref item).items key = (m.items key).set ref item :=
  update_self ..

variable {k key : Bytes}

@[simp] theorem SharedMaps.items_put_of_ne (m : SharedMaps) (h : k ≠ key) (ref : ℕ)
    (item : MultiVersionValue) : (m.put key ref item).items k = m.items k :=
  update_of_ne h ..

@[simp] theorem SharedMaps.items_store_self (m : SharedMaps) (key : Bytes)
    (item : MultiVersionValue) : (m.store key item).items key = m.items key ++ [item] :=
  update_self ..

@[simp] theorem SharedMaps.items_store_of_ne (m : SharedMaps) (h : k ≠ key)
    (item : MultiVersionValue) : (m.store key item).items k = m.items k :=
  update_of_ne h ..

open SharedMaps (items_put_of_ne items_put_self items_store_of_ne items_store_self)

section Reach

variable {versionList : Bool} {totalTask : ℕ} {π : Type} {s : Store π} {p : Publication}
  {m : SharedMaps} {key : Bytes}

/-- The containers have the places that calls find or make them with, and none has
disappeared. -/
structure Shaped (versionList : Bool) (totalTask : ℕ) (s : Store π) (m : SharedMaps) : Prop where
  missing : ∀ k, m.items k = [] → s.multiVersionMap.lookup k = none
  fits_iff : ∀ k, ∀ item ∈ m.items k, ∀ j,
    item.fits j ↔ (s.container versionList totalTask k).fits j

/-- The start is shaped. -/
theorem shaped_of (versionList : Bool) (totalTask : ℕ) (s : Store π) :
    Shaped versionList totalTask s (.of s.multiVersionMap s.txWritesetKeys) := by
  refine ⟨fun k hk => by simpa [SharedMaps.of] using hk, fun k item hitem j => ?_⟩
  have hlook : s.multiVersionMap.lookup k = some item := by simpa [SharedMaps.of] using hitem
  rw [Store.container, hlook, Option.getD_some]

/-- Containers keep their places. -/
theorem Shaped.put {ref : ℕ} {item item' : MultiVersionValue} (h : Shaped versionList totalTask s m)
    (hitem : (m.items key)[ref]? = some item) (hfits : ∀ j, item'.fits j ↔ item.fits j) :
    Shaped versionList totalTask s (m.put key ref item') := by
  refine ⟨fun k hk => ?_, fun k i hi j => ?_⟩
  · by_cases hkey : k = key
    · subst hkey
      refine h.missing k ?_
      rwa [items_put_self, List.set_eq_nil_iff] at hk
    · exact h.missing k (by rwa [items_put_of_ne m hkey] at hk)
  · by_cases hkey : k = key
    · subst hkey
      rw [items_put_self] at hi
      rcases List.mem_or_eq_of_mem_set hi with hi | rfl
      · exact h.fits_iff k i hi j
      · exact (hfits j).trans (h.fits_iff k item (List.mem_of_getElem? hitem) j)
    · rw [items_put_of_ne m hkey] at hi
      exact h.fits_iff k i hi j

/-- A new container keeps the shape. -/
theorem Shaped.store (h : Shaped versionList totalTask s m)
    (hkey : s.multiVersionMap.lookup key = none) :
    Shaped versionList totalTask s (m.store key (newVersions versionList totalTask)) := by
  refine ⟨fun k hk => ?_, fun k i hi j => ?_⟩
  · by_cases hne : k = key
    · rw [hne]
      exact hkey
    · exact h.missing k (by rwa [items_store_of_ne m hne] at hk)
  · by_cases hne : k = key
    · subst hne
      rw [items_store_self, List.mem_append, List.mem_singleton] at hi
      rcases hi with hi | rfl
      · exact h.fits_iff k i hi j
      · rw [Store.container, hkey, Option.getD_none]
    · rw [items_store_of_ne m hne] at hi
      exact h.fits_iff k i hi j

/-- Some steps of one call from a shaped state: it stays shaped, and only the containers of
the keys `touched` and the recorded keys of the call change. -/
structure Publication.Reaches (versionList : Bool) (totalTask : ℕ) (s : Store π) (p : Publication)
    (touched : Set Bytes) (c c' : Publisher × SharedMaps) : Prop where
  steps : p.Steps versionList totalTask c c'
  shaped : Shaped versionList totalTask s c'.2
  kept : ∀ k, k ∉ touched → c'.2.items k = c.2.items k
  recorded : ∀ j, j ≠ p.index → c'.2.txWritesetKeys.lookup j = c.2.txWritesetKeys.lookup j

namespace Publication.Reaches

variable {touched touched' : Set Bytes} {c c' c'' : Publisher × SharedMaps}

theorem refl (h : Shaped versionList totalTask s c.2) :
    p.Reaches versionList totalTask s touched c c :=
  ⟨.refl, h, fun _ _ => rfl, fun _ _ => rfl⟩

/-- Steps one after the other. -/
theorem trans (h : p.Reaches versionList totalTask s touched c c')
    (h' : p.Reaches versionList totalTask s touched c' c'') :
    p.Reaches versionList totalTask s touched c c'' :=
  ⟨h.steps.trans h'.steps, h'.shaped, fun k hk => (h'.kept k hk).trans (h.kept k hk),
    fun j hj => (h'.recorded j hj).trans (h.recorded j hj)⟩

theorem mono (h : p.Reaches versionList totalTask s touched c c') (hsub : touched ⊆ touched') :
    p.Reaches versionList totalTask s touched' c c' :=
  ⟨h.steps, h.shaped, fun k hk => h.kept k fun hmem => hk (hsub hmem), h.recorded⟩

end Publication.Reaches

/-- The entry can be written: its container has a place, and its value is valid. -/
def Writable (versionList : Bool) (totalTask : ℕ) (s : Store π) (entry : (_ : Bytes) × Slice) :
    Prop :=
  (s.container versionList totalTask entry.1).fits 0 ∧ ∀ v, entry.2 = some v → ValidValue v

variable {entry : (_ : Bytes) × Slice}

/-- Every entry can be written. -/
theorem Publication.Sturdy.writable (h : p.Sturdy versionList totalTask s)
    (he : entry ∈ p.writeset.entries) : Writable versionList totalTask s entry :=
  ⟨h.fits _ (.inl (mem_iff_exists_lookup.mpr ⟨_, mem_entries_iff.mp he⟩)), h.valid _ he⟩

variable (hm : Shaped versionList totalTask s m) {before : List ((_ : Bytes) × Slice)}
include hm

/-- From `create`, the call stores a new container and writes to it. -/
theorem reaches_create (entries : List ((_ : Bytes) × Slice))
    (hlook : s.multiVersionMap.lookup entry.1 = none)
    (hentry : Writable versionList totalTask s entry) :
    ∃ item' m', p.Reaches versionList totalTask s {entry.1} (.create entry entries, m)
        (.writing entries, m') ∧
      m'.items entry.1 = m.items entry.1 ++ [item'] ∧
      (newVersions versionList totalTask).Put ((newVersions versionList totalTask).clamp p.index)
        (some (writtenItem p.index p.incarnation entry.2
          ((newVersions versionList totalTask).clamp p.index))) item' := by
  rw [Writable, Store.container, hlook, Option.getD_none] at hentry
  obtain ⟨item', hitem⟩ : ∃ item', setOrDelete p.index p.incarnation entry.2
      (newVersions versionList totalTask) = .ok item' := exists_setOrDelete_iff.mpr hentry
  have hput := (setOrDelete_ok hitem).2
  have hget : ((m.store entry.1 (newVersions versionList totalTask)).items
      entry.1)[(m.items entry.1).length]? = some (newVersions versionList totalTask) := by
    simp
  refine ⟨item', _, ⟨.head .store (.single (.write hget hitem)),
    (hm.store hlook).put hget hput.fits_iff, fun k hk => ?_, fun _ _ => rfl⟩, ?_, hput⟩
  · rw [items_put_of_ne _ hk, items_store_of_ne _ hk]
  · rw [items_put_self, items_store_self, List.set_append_right _ _ le_rfl]
    simp

/-- One entry of the write set can be written. -/
theorem reaches_entry (entries : List ((_ : Bytes) × Slice))
    (hentry : Writable versionList totalTask s entry) :
    ∃ m', p.Reaches versionList totalTask s {entry.1} (.writing (entry :: entries), m)
      (.writing entries, m') := by
  rcases Nat.eq_zero_or_eq_succ_pred (m.items entry.1).length with hlen | hlen
  · have hnil : m.items entry.1 = [] := List.length_eq_zero_iff.mp hlen
    obtain ⟨item', m', hreach, -, -⟩ :=
      reaches_create (p := p) hm entries (hm.missing _ hnil) hentry
    exact ⟨m', ⟨.head (.loadMissing hnil) hreach.steps, hreach.shaped, hreach.kept,
      hreach.recorded⟩⟩
  · obtain ⟨item, hget⟩ : ∃ item, (m.items entry.1)[(m.items entry.1).length.pred]? = some item :=
      ⟨_, List.getElem?_eq_getElem (by omega)⟩
    have hfits : item.fits 0 :=
      (hm.fits_iff _ item (List.mem_of_getElem? hget) 0).mpr hentry.1
    obtain ⟨item', hitem⟩ : ∃ item', setOrDelete p.index p.incarnation entry.2 item = .ok item' :=
      exists_setOrDelete_iff.mpr ⟨hfits, hentry.2⟩
    refine ⟨_, ⟨.head (.load _ hlen) (.single (.write hget hitem)),
      hm.put hget (setOrDelete_ok hitem).2.fits_iff, fun k hk => ?_, fun _ _ => rfl⟩⟩
    exact items_put_of_ne _ hk ..

/-- A call can always write the next entries of its write set. -/
theorem reaches_writing (rest : List ((_ : Bytes) × Slice))
    (hbefore : ∀ e ∈ before, Writable versionList totalTask s e) :
    ∃ m', p.Reaches versionList totalTask s {k | k ∈ before.map Sigma.fst}
      (.writing (before ++ rest), m) (.writing rest, m') := by
  induction before generalizing m with
  | nil => exact ⟨m, .refl hm⟩
  | cons entry before ih =>
    obtain ⟨m₁, h₁⟩ := reaches_entry (p := p) hm (before ++ rest) (hbefore entry mem_cons_self)
    obtain ⟨m₂, h₂⟩ := ih h₁.shaped fun e he => hbefore e (mem_cons_of_mem entry he)
    refine ⟨m₂, (h₁.mono fun k hk => ?_).trans (h₂.mono fun k hk => ?_)⟩
    · obtain rfl := hk
      exact mem_cons_self
    · exact mem_cons_of_mem entry.1 hk

/-- A call can always remove its old keys, and leaves their places empty. -/
theorem reaches_removing {keys : List Bytes}
    (hkeys : ∀ k ∈ keys, (s.container versionList totalTask k).fits 0) :
    ∃ m', p.Reaches versionList totalTask s {k | k ∈ keys} (.removing keys, m) (.removing [], m') ∧
      ∀ k ∈ keys, ∀ item ∈ (m'.items k).getLast?,
        item.slot ((s.container versionList totalTask k).clamp p.index) = none := by
  induction keys generalizing m with
  | nil => exact ⟨m, .refl hm, fun k hk => absurd hk not_mem_nil⟩
  | cons key keys ih =>
    -- one key: its last container, if there is one, loses its place
    have hone : ∃ m₁, p.Reaches versionList totalTask s {key} (.removing (key :: keys), m)
        (.removing keys, m₁) ∧ ∀ item ∈ (m₁.items key).getLast?,
          item.slot ((s.container versionList totalTask key).clamp p.index) = none := by
      rcases Nat.eq_zero_or_eq_succ_pred (m.items key).length with hlen | hlen
      · have hnil : m.items key = [] := List.length_eq_zero_iff.mp hlen
        refine ⟨m, ⟨.single (.loadRemovedMissing hnil), hm, fun _ _ => rfl, fun _ _ => rfl⟩, ?_⟩
        simp [hnil]
      · obtain ⟨item, hget⟩ : ∃ item, (m.items key)[(m.items key).length.pred]? = some item :=
          ⟨_, List.getElem?_eq_getElem (by omega)⟩
        have hsame := hm.fits_iff _ item (List.mem_of_getElem? hget)
        have hfits : item.fits 0 := (hsame 0).mpr (hkeys key mem_cons_self)
        obtain ⟨item', hitem⟩ : ∃ item', item.remove p.index = .ok item' :=
          exists_remove_iff.mpr hfits
        have hput := remove_ok hitem
        refine ⟨_, ⟨.head (.loadRemoved _ hlen) (.single (.remove hget hitem)),
          hm.put hget hput.fits_iff, fun k hk => items_put_of_ne _ hk ..,
          fun _ _ => rfl⟩, fun i hi => ?_⟩
        rw [items_put_self, Option.mem_def, List.getLast?_eq_getElem?,
          List.length_set, Nat.sub_one, List.getElem?_set_self (by omega)] at hi
        obtain rfl := Option.some.inj hi
        rw [hput.slot_eq, ← clamp_congr hsame hfits, if_pos rfl]
    obtain ⟨m₁, h₁, hslot₁⟩ := hone
    obtain ⟨m₂, h₂, hslot₂⟩ := ih h₁.shaped fun k hk => hkeys k (mem_cons_of_mem key hk)
    refine ⟨m₂, (h₁.mono fun k hk => ?_).trans (h₂.mono fun k hk => ?_), fun k hk => ?_⟩
    · obtain rfl := hk
      exact mem_cons_self
    · exact mem_cons_of_mem key hk
    · by_cases hmem : k ∈ keys
      · exact hslot₂ k hmem
      · obtain rfl := (mem_cons.mp hk).resolve_right hmem
        have hkept : m₂.items k = m₁.items k := h₂.kept k hmem
        rw [hkept]
        exact hslot₁

/-- **A call can always go on** up to any entry of its write set. -/
theorem reaches_from_start {rest : List ((_ : Bytes) × Slice)}
    (hp : p.Sturdy versionList totalTask s) (hown : m.writesetKeys p.index = s.writesetKeys p.index)
    (hentries : p.writeset.entries = before ++ rest) :
    ∃ m', p.Reaches versionList totalTask s
        {k | k ∈ before.map Sigma.fst ∨ (k ∈ s.writesetKeys p.index ∧ k ∉ p.writeset)}
        (.start, m) (.writing rest, m') ∧
      ∀ k ∈ s.writesetKeys p.index, k ∉ p.writeset → ∀ item ∈ (m'.items k).getLast?,
        item.slot ((s.container versionList totalTask k).clamp p.index) = none := by
  have hstart : p.Reaches versionList totalTask s
      {k | k ∈ before.map Sigma.fst ∨ (k ∈ s.writesetKeys p.index ∧ k ∉ p.writeset)} (.start, m)
      (.removing ((m.writesetKeys p.index).filter (· ∉ p.writeset)),
        { m with txWritesetKeys := m.txWritesetKeys.erase p.index }) :=
    ⟨.single .loadAndDelete, ⟨hm.missing, hm.fits_iff⟩, fun _ _ => rfl,
      fun j hj => AList.lookup_erase_ne hj⟩
  rw [hown] at hstart
  have hmem : ∀ k, k ∈ (s.writesetKeys p.index).filter (· ∉ p.writeset) ↔
      k ∈ s.writesetKeys p.index ∧ k ∉ p.writeset := by simp
  obtain ⟨m₁, h₁, hslot⟩ := reaches_removing (p := p) hstart.shaped fun k hk =>
    hp.fits k (.inr ((hmem k).mp hk).1)
  obtain ⟨m₂, h₂⟩ := reaches_writing (p := p) h₁.shaped rest fun e he =>
    hp.writable (hentries ▸ List.mem_append_left rest he)
  rw [← hentries] at h₂
  have hbegin : p.Reaches versionList totalTask s {k | k ∈ before.map Sigma.fst}
      (.removing [], m₁) (.writing p.writeset.entries, m₁) :=
    ⟨.single .removed, h₁.shaped, fun _ _ => rfl, fun _ _ => rfl⟩
  have hrest := hbegin.trans h₂
  refine ⟨m₂, (hstart.trans (h₁.mono fun k hk => .inr ((hmem k).mp hk))).trans
    (hrest.mono fun k hk => .inl hk), fun k hk hws => ?_⟩
  have hbefore : k ∉ before.map Sigma.fst := by
    intro hk'
    refine hws (AList.mem_keys.mpr ?_)
    rw [AList.keys, hentries, List.keys, List.map_append]
    exact List.mem_append_left _ hk'
  have hkept : m₂.items k = m₁.items k := hrest.kept k hbefore
  rw [hkept]
  exact hslot k ((hmem k).mpr ⟨hk, hws⟩)

end Reach

/-! ### Calls that do not clash -/

section Safe

variable {ι : Type} {versionList : Bool} {totalTask : ℕ} {π : Type} {s : Store π}
  {p : ι → Publication} {q : Publication} {m m' : SharedMaps} {e : (_ : Bytes) × Slice}
  {k : Bytes} {i : ι} {c : (ι → Publisher) × SharedMaps}

/-- The container of an entry's key, the only one stored so far, holds the entry in the
place of the call. -/
def Written (m : SharedMaps) (p : Publication) (entry : (_ : Bytes) × Slice) : Prop :=
  ∃ item, m.items entry.1 = [item] ∧
    item.slot p.index = some (writtenItem p.index p.incarnation entry.2 p.index)

/-- **The calls do not clash**: the containers that exist have a place for every call that
writes to them, a key without a container is written by one call only, and no call's removal
of an old key is clamped to the place of another call that writes the key. -/
structure NoClash (s : Store π) (p : ι → Publication) : Prop where
  places : ∀ i, ∀ k ∈ (p i).writeset, ∀ item, s.multiVersionMap.lookup k = some item →
    item.fits (p i).index
  missing : ∀ i j, i ≠ j → ∀ k ∈ (p i).writeset, k ∈ (p j).writeset →
    s.multiVersionMap.lookup k ≠ none
  removals : ∀ i j, i ≠ j → ∀ k ∈ (p i).writeset, k ∈ s.writesetKeys (p j).index →
    k ∉ (p j).writeset → ∀ item, s.multiVersionMap.lookup k = some item →
      item.clamp (p j).index ≠ (p i).index

/-- The index fits its container. -/
theorem NoClash.fits (h : NoClash s p) (hi : (p i).index < totalTask) (hk : k ∈ (p i).writeset) :
    (s.container versionList totalTask k).fits (p i).index := by
  unfold Store.container
  cases hlook : s.multiVersionMap.lookup k with
  | none => exact fits_newVersions hi
  | some item => exact h.places i k hk item hlook

/-- Two calls that do not clash use different places. -/
theorem NoClash.clamp_ne (h : NoClash s p) {j : ι} (hij : i ≠ j)
    (hindex : (p i).index ≠ (p j).index) (hj : (p j).index < totalTask) (hk : k ∈ (p i).writeset)
    (hrec : k ∈ s.writesetKeys (p j).index) (hws : k ∉ (p j).writeset) :
    (s.container versionList totalTask k).clamp (p j).index ≠ (p i).index := by
  unfold Store.container
  cases hlook : s.multiVersionMap.lookup k with
  | none =>
    rw [Option.getD_none, clamp_of_fits (fits_newVersions hj)]
    exact hindex.symm
  | some item => exact h.removals i j hij k hk hrec hws item hlook

/-- The entries a call has still to write. -/
def Publisher.pending (q : Publication) : Publisher → List ((_ : Bytes) × Slice)
  | start | removing _ | remove _ _ _ => q.writeset.entries
  | writing entries => entries
  | create entry entries | write entry _ entries => entry :: entries
  | done => []

/-- What a call knows: it removes old keys that it does not rewrite, it is about to make a
container only where there is none, and every container it has loaded is the first one. -/
def Publisher.Knows (s : Store π) (q : Publication) (m : SharedMaps) : Publisher → Prop
  | start => m.writesetKeys q.index = s.writesetKeys q.index
  | removing keys => ∀ k ∈ keys, k ∈ s.writesetKeys q.index ∧ k ∉ q.writeset
  | remove key ref keys =>
    ref = 0 ∧ ∀ k ∈ key :: keys, k ∈ s.writesetKeys q.index ∧ k ∉ q.writeset
  | create entry _ => m.items entry.1 = []
  | write _ ref _ => ref = 0
  | writing _ | done => True

/-- **The invariant**: a key has at most one container, and the entries that are no longer
pending are in place. -/
structure Safe (versionList : Bool) (totalTask : ℕ) (s : Store π) (p : ι → Publication)
    (c : (ι → Publisher) × SharedMaps) : Prop where
  shaped : Shaped versionList totalTask s c.2
  single : ∀ k, (c.2.items k).length ≤ 1
  knows : ∀ i, (c.1 i).Knows s (p i) c.2
  pending : ∀ i, (c.1 i).pending (p i) <:+ (p i).writeset.entries
  written : ∀ i, ∀ e ∈ (p i).writeset.entries, e ∉ (c.1 i).pending (p i) → Written c.2 (p i) e

theorem Publisher.Knows.mono {t : Publisher} (h : t.Knows s q m)
    (hkeys : m'.writesetKeys q.index = m.writesetKeys q.index)
    (hitems : ∀ e ∈ t.pending q, m.items e.1 = [] → m'.items e.1 = []) : t.Knows s q m' := by
  cases t with
  | start => exact hkeys.trans h
  | create entry entries => exact hitems entry mem_cons_self h
  | _ => exact h

/-- A write elsewhere leaves what is written. -/
theorem Written.put {key : Bytes} {item' : MultiVersionValue} {c : ℕ} {v : Option ValueItem}
    (h : Written m q e) (hkey : m.items key = [item]) (hput : item.Put c v item')
    (hc : e.1 = key → q.index ≠ c) : Written (m.put key 0 item') q e := by
  obtain ⟨i, hi, hslot⟩ := h
  by_cases he : e.1 = key
  · subst he
    obtain rfl : item = i := by simpa [hkey] using hi
    refine ⟨item', by rw [items_put_self, hkey, set_cons_zero], ?_⟩
    rw [hput.slot_eq, if_neg (hc rfl)]
    exact hslot
  · exact ⟨i, by rw [items_put_of_ne _ he, hi], hslot⟩

/-- A call that is pending at an entry writes its key. -/
theorem Safe.mem_writeset (h : Safe versionList totalTask s p c) (he : e ∈ (c.1 i).pending (p i)) :
    e.1 ∈ (p i).writeset :=
  mem_iff_exists_lookup.mpr ⟨e.2, mem_entries_iff.mp ((h.pending i).subset he)⟩

/-- A key has one container. -/
theorem Safe.items_eq (h : Safe versionList totalTask s p c) (hitem : (c.2.items k)[0]? = some item)
    : c.2.items k = [item] := by
  have hlen := h.single k
  match hitems : c.2.items k with
  | [] => simp [hitems] at hitem
  | [i] => simpa [hitems] using hitem
  | _ :: _ :: _ => simp [hitems] at hlen

/-- Entries of a write set are told apart by their keys. -/
theorem eq_of_key_eq {ws : WriteSet} {e' : (_ : Bytes) × Slice} (he : e ∈ ws.entries)
    (he' : e' ∈ ws.entries) (hkey : e.1 = e'.1) : e = e' := by
  obtain ⟨k, v⟩ := e
  obtain ⟨k', v'⟩ := e'
  obtain rfl : k = k' := hkey
  have hv : ws.lookup k = some v := mem_entries_iff.mp he
  have hv' : ws.lookup k = some v' := mem_entries_iff.mp he'
  obtain rfl := Option.some.inj (hv.symm.trans hv')
  rfl

variable [DecidableEq ι] {locals : ι → Publisher} {i : ι} {item item' : MultiVersionValue}

/-- The steps of several calls. -/
abbrev Publication.Run (versionList : Bool) (totalTask : ℕ) (p : ι → Publication) :
    (ι → Publisher) × SharedMaps → (ι → Publisher) × SharedMaps → Prop :=
  Interleaving.Run fun i => (p i).Step versionList totalTask

section

variable (h : Safe versionList totalTask s p (locals, m))
include h

variable {t : Publisher}

/-- Assembling the invariant after a step of call `i`. -/
theorem Safe.update (hshaped : Shaped versionList totalTask s m')
    (hsingle : ∀ k, (m'.items k).length ≤ 1) (hown : t.Knows s (p i) m')
    (hother : ∀ j, j ≠ i → (locals j).Knows s (p j) m')
    (hpending : t.pending (p i) <:+ (locals i).pending (p i))
    (hwritten : ∀ j, ∀ e ∈ (p j).writeset.entries,
      e ∉ (Function.update locals i t j).pending (p j) → Written m' (p j) e) :
    Safe versionList totalTask s p (Function.update locals i t, m') := by
  refine ⟨hshaped, hsingle, fun j => ?_, fun j => ?_, hwritten⟩
  · by_cases hj : j = i
    · subst hj
      simpa only [update_self] using hown
    · simpa only [update_of_ne hj] using hother j hj
  · by_cases hj : j = i
    · subst hj
      simpa only [update_self] using hpending.trans (h.pending j)
    · simpa only [update_of_ne hj] using h.pending j

/-- The steps that leave the containers alone and write no entry. -/
theorem Safe.update_of_items (hitems : m'.items = m.items)
    (hkeys : ∀ j, j ≠ i → m'.writesetKeys (p j).index = m.writesetKeys (p j).index)
    (hown : t.Knows s (p i) m') (hpending : t.pending (p i) = (locals i).pending (p i)) :
    Safe versionList totalTask s p (Function.update locals i t, m') := by
  refine h.update ⟨?_, ?_⟩ ?_ hown (fun j hj => ?_) (hpending ▸ suffix_rfl)
    fun j e he hne => ?_
  · rw [hitems]
    exact h.shaped.missing
  · rw [hitems]
    exact h.shaped.fits_iff
  · rw [hitems]
    exact h.single
  · exact (h.knows j).mono (hkeys j hj) fun e _ hnil => by rw [hitems]; exact hnil
  · have hold : e ∉ (locals j).pending (p j) := by
      by_cases hj : j = i
      · subst hj
        rwa [update_self, hpending] at hne
      · rwa [update_of_ne hj] at hne
    obtain ⟨item, hitem, hslot⟩ := h.written j e he hold
    exact ⟨item, by rw [hitems]; exact hitem, hslot⟩

/-- The steps that change a container. -/
theorem Safe.update_of_put {key : Bytes} {c : ℕ} {v : Option ValueItem}
    (hitem : (m.items key)[0]? = some item) (hput : item.Put c v item')
    (hown : t.Knows s (p i) (m.put key 0 item'))
    (hpending : t.pending (p i) <:+ (locals i).pending (p i))
    (hwritten : ∀ j, ∀ e ∈ (p j).writeset.entries,
      e ∉ (Function.update locals i t j).pending (p j) → Written (m.put key 0 item') (p j) e) :
    Safe versionList totalTask s p (Function.update locals i t, m.put key 0 item') := by
  refine h.update (h.shaped.put hitem hput.fits_iff) (fun k => ?_) hown
    (fun j _ => (h.knows j).mono rfl fun e _ hnil => ?_) hpending hwritten
  · by_cases hk : k = key
    · subst hk
      rw [items_put_self, List.length_set]
      exact h.single k
    · rw [items_put_of_ne _ hk]
      exact h.single k
  · by_cases hk : e.1 = key
    · subst hk
      rw [items_put_self, List.set_eq_nil_iff]
      exact hnil
    · rw [items_put_of_ne _ hk]
      exact hnil

end

section

variable (hclash : NoClash s p) (hindex : ∀ i j, i ≠ j → (p i).index ≠ (p j).index)
  (htask : ∀ i, (p i).index < totalTask) (h : Safe versionList totalTask s p (locals, m))
  {ref : ℕ}
include hclash hindex htask h

/-- The removal of an old key, whose place no other call writes to. -/
theorem Safe.update_of_remove {key : Bytes} {keys : List Bytes}
    (hpc : locals i = .remove key ref keys) (hitem : (m.items key)[ref]? = some item)
    (hremove : item.remove (p i).index = .ok item') :
    Safe versionList totalTask s p
      (Function.update locals i (.removing keys), m.put key ref item') := by
  have hknows : (locals i).Knows s (p i) m := h.knows i
  rw [hpc] at hknows
  obtain ⟨rfl, hkeys⟩ := hknows
  obtain ⟨hrec, hws⟩ := hkeys key mem_cons_self
  have hitems : m.items key = [item] := h.items_eq hitem
  have hput := remove_ok hremove
  refine h.update_of_put hitem hput (fun k hk => hkeys k (mem_cons_of_mem _ hk))
    (by rw [hpc]; exact suffix_rfl) fun j e he hne => ?_
  by_cases hj : j = i
  · subst hj
    rw [update_self] at hne
    exact absurd he hne
  · rw [update_of_ne hj] at hne
    refine (h.written j e he hne).put hitems hput fun hkey => ?_
    have hmem : e.1 ∈ (p j).writeset := mem_iff_exists_lookup.mpr ⟨_, mem_entries_iff.mp he⟩
    have hsame := h.shaped.fits_iff key item (by rw [hitems]; exact List.mem_singleton_self _)
    rw [clamp_congr hsame (exists_remove_iff.mp ⟨_, hremove⟩)]
    exact (hclash.clamp_ne hj (hindex j i hj) (htask i) (hkey ▸ hmem) hrec hws).symm

/-- The write of an entry, to the place of the call. -/
theorem Safe.update_of_write {entry : (_ : Bytes) × Slice} {entries : List ((_ : Bytes) × Slice)}
    (hpc : locals i = .write entry ref entries) (hitem : (m.items entry.1)[ref]? = some item)
    (hwrite : setOrDelete (p i).index (p i).incarnation entry.2 item = .ok item') :
    Safe versionList totalTask s p
      (Function.update locals i (.writing entries), m.put entry.1 ref item') := by
  have hknows : (locals i).Knows s (p i) m := h.knows i
  have hpend : entry ∈ (locals i).pending (p i) := by rw [hpc]; exact mem_cons_self
  rw [hpc] at hknows
  obtain rfl : ref = 0 := hknows
  have hitems : m.items entry.1 = [item] := h.items_eq hitem
  have hsame := h.shaped.fits_iff entry.1 item (by rw [hitems]; exact List.mem_singleton_self _)
  have hfits : item.fits (p i).index :=
    (hsame _).mpr (hclash.fits (htask i) (h.mem_writeset hpend))
  have hput := (setOrDelete_ok hwrite).2
  rw [clamp_of_fits hfits] at hput
  refine h.update_of_put hitem hput trivial (by rw [hpc]; exact List.suffix_cons _ _)
    fun j e he hne => ?_
  by_cases hj : j = i
  · subst hj
    rw [update_self] at hne
    by_cases hentry : e = entry
    · subst hentry
      refine ⟨item', by rw [items_put_self, hitems, set_cons_zero], ?_⟩
      rw [hput.slot_eq, if_pos rfl]
    · have hold : e ∉ (locals j).pending (p j) := by
        rw [hpc]
        exact fun hmem => hne ((mem_cons.mp hmem).resolve_left hentry)
      refine (h.written j e he hold).put hitems hput fun hkey => ?_
      exact absurd (eq_of_key_eq he ((h.pending j).subset hpend) hkey) hentry
  · rw [update_of_ne hj] at hne
    exact (h.written j e he hne).put hitems hput fun _ => hindex j i hj

end

/-- The store of a new container, under a key that no other call is about to make one for. -/
theorem Safe.update_of_store {entry : (_ : Bytes) × Slice} {entries : List ((_ : Bytes) × Slice)}
    (hclash : NoClash s p) (h : Safe versionList totalTask s p (locals, m))
    (hpc : locals i = .create entry entries) :
    Safe versionList totalTask s p
      (Function.update locals i (.write entry (m.items entry.1).length entries),
        m.store entry.1 (newVersions versionList totalTask)) := by
  have hknows : (locals i).Knows s (p i) m := h.knows i
  have hpend : entry ∈ (locals i).pending (p i) := by rw [hpc]; exact mem_cons_self
  rw [hpc] at hknows
  have hnil : m.items entry.1 = [] := hknows
  have hlook := h.shaped.missing entry.1 hnil
  refine h.update (h.shaped.store hlook) (fun k => ?_) (by rw [hnil]; rfl)
    (fun j hj => (h.knows j).mono rfl fun e he hnil' => ?_) (by rw [hpc]; exact suffix_rfl)
    fun j e he hne => ?_
  · by_cases hk : k = entry.1
    · subst hk
      rw [items_store_self, hnil]
      exact le_rfl
    · rw [items_store_of_ne _ hk]
      exact h.single k
  · have hk : e.1 ≠ entry.1 := by
      intro hk
      refine hclash.missing j i hj entry.1 ?_ (h.mem_writeset hpend) hlook
      exact hk ▸ h.mem_writeset he
    rw [items_store_of_ne _ hk]
    exact hnil'
  · have hold : e ∉ (locals j).pending (p j) := by
      by_cases hj : j = i
      · subst hj
        rw [update_self] at hne
        rwa [hpc]
      · rwa [update_of_ne hj] at hne
    obtain ⟨item, hitem, hslot⟩ := h.written j e he hold
    have hk : e.1 ≠ entry.1 := by
      intro hk
      rw [hk] at hitem
      exact absurd (hitem.symm.trans hnil) (List.cons_ne_nil _ _)
    exact ⟨item, by rw [items_store_of_ne _ hk]; exact hitem, hslot⟩

/-- **The step lemma.** -/
theorem Safe.step (hclash : NoClash s p)
    (hindex : ∀ i j, i ≠ j → (p i).index ≠ (p j).index) (htask : ∀ i, (p i).index < totalTask)
    (c c' : (ι → Publisher) × SharedMaps) (h : Safe versionList totalTask s p c)
    (hstep : Interleaving.Step (fun i => (p i).Step versionList totalTask) c c') :
    Safe versionList totalTask s p c' := by
  cases hstep with
  | @of i locals m m' t hstep =>
    have hknows : (locals i).Knows s (p i) m := h.knows i
    generalize hpc : locals i = pc at hstep
    rw [hpc] at hknows
    cases hstep with
    | loadAndDelete =>
      refine h.update_of_items rfl (fun j hj => ?_) (fun k hk => ?_) (by rw [hpc]; rfl)
      · simp only [SharedMaps.writesetKeys, AList.lookup_erase_ne (hindex j i hj)]
      · have hold : m.writesetKeys (p i).index = s.writesetKeys (p i).index := hknows
        rw [hold] at hk
        simpa using hk
    | loadRemovedMissing hnil =>
      exact h.update_of_items rfl (fun _ _ => rfl)
        (fun k hk => hknows k (mem_cons_of_mem _ hk)) (by rw [hpc]; rfl)
    | @loadRemoved _ key keys ref hlen =>
      have hone : (m.items key).length ≤ 1 := h.single key
      exact h.update_of_items rfl (fun _ _ => rfl) ⟨by omega, hknows⟩ (by rw [hpc]; rfl)
    | remove hitem hremove => exact h.update_of_remove hclash hindex htask hpc hitem hremove
    | removed => exact h.update_of_items rfl (fun _ _ => rfl) trivial (by rw [hpc]; rfl)
    | loadMissing hnil => exact h.update_of_items rfl (fun _ _ => rfl) hnil (by rw [hpc]; rfl)
    | @load _ entry entries ref hlen =>
      have hone : (m.items entry.1).length ≤ 1 := h.single entry.1
      have hzero : ref = 0 := by omega
      exact h.update_of_items rfl (fun _ _ => rfl) hzero (by rw [hpc]; rfl)
    | store => exact h.update_of_store hclash hpc
    | write hitem hwrite => exact h.update_of_write hclash hindex htask hpc hitem hwrite
    | record =>
      refine h.update_of_items rfl (fun j hj => ?_) trivial (by rw [hpc]; rfl)
      simp only [SharedMaps.writesetKeys, AList.lookup_insert_ne (hindex j i hj)]

omit [DecidableEq ι] in
/-- The start is safe. -/
theorem safe_start (versionList : Bool) (totalTask : ℕ) (s : Store π) (p : ι → Publication) :
    Safe versionList totalTask s p (fun _ => .start, .of s.multiVersionMap s.txWritesetKeys) := by
  refine ⟨shaped_of versionList totalTask s, fun k => ?_, fun _ => rfl,
    fun _ => suffix_rfl, fun i e he hne => absurd he hne⟩
  simp only [SharedMaps.of]
  cases s.multiVersionMap.lookup k with
  | none => exact Nat.zero_le 1
  | some item => exact le_rfl

/-- **No write is lost**: in every run in which all calls finish, every entry of a call's
write set is in the place of the call, in the container that the map holds in the end. -/
def NoLostWrite (versionList : Bool) (totalTask : ℕ) (s : Store π) (p : ι → Publication) : Prop :=
  ∀ m, Publication.Run versionList totalTask p
      (fun _ => .start, .of s.multiVersionMap s.txWritesetKeys) (fun _ => .done, m) →
    ∀ i k v, (p i).writeset.lookup k = some v → ∃ item, (m.items k).getLast? = some item ∧
      item.slot (p i).index = some (writtenItem (p i).index (p i).incarnation v (p i).index)

/-- **Calls that do not clash lose no write**, however many they are. -/
theorem NoClash.noLostWrite (hclash : NoClash s p)
    (hindex : ∀ i j, i ≠ j → (p i).index ≠ (p j).index) (htask : ∀ i, (p i).index < totalTask) :
    NoLostWrite versionList totalTask s p := by
  intro m hrun i k v hv
  have hsafe : Safe versionList totalTask s p (fun _ => .done, m) :=
    Interleaving.Run.invariant (Safe.step hclash hindex htask)
      (safe_start versionList totalTask s p) hrun
  obtain ⟨item, hitem, hslot⟩ :=
    hsafe.written i ⟨k, v⟩ (mem_entries_iff.mpr hv) not_mem_nil
  have hlast : m.items k = [item] := hitem
  exact ⟨item, by rw [hlast]; rfl, hslot⟩

end Safe

/-! ### Calls that clash -/

section Clash

variable {versionList i : Bool} {totalTask : ℕ} {π : Type} {s : Store π} {p : Bool → Publication}
  {q : Publication} {m m' : SharedMaps} {k : Bytes}

/-- A call that has come to its write set can always finish. -/
theorem reaches_done {rest : List ((_ : Bytes) × Slice)} (hm : Shaped versionList totalTask s m)
    (hrest : ∀ e ∈ rest, Writable versionList totalTask s e) :
    ∃ m', q.Reaches versionList totalTask s {k | k ∈ rest.map Sigma.fst} (.writing rest, m)
      (.done, m') := by
  obtain ⟨m₁, h₁⟩ := reaches_writing (p := q) hm [] hrest
  rw [List.append_nil] at h₁
  refine ⟨_, h₁.trans ⟨.single .record, ⟨h₁.shaped.missing, h₁.shaped.fits_iff⟩, fun _ _ => rfl,
    fun j hj => AList.lookup_insert_ne hj⟩⟩

/-- An entry of a write set, and that its key comes up once. -/
theorem exists_entries_eq {ws : WriteSet} (hk : k ∈ ws) :
    ∃ v before rest, ws.entries = before ++ ⟨k, v⟩ :: rest ∧
      k ∉ before.map Sigma.fst ∧ k ∉ rest.map Sigma.fst := by
  obtain ⟨v, hv⟩ := mem_iff_exists_lookup.mp hk
  have hmem : ⟨k, v⟩ ∈ ws.entries := mem_entries_iff.mpr hv
  obtain ⟨before, rest, hentries⟩ := List.append_of_mem hmem
  refine ⟨v, before, rest, hentries, ?_⟩
  have hnodup : (ws.entries.map Sigma.fst).Nodup := ws.keys_nodup
  rw [hentries, List.map_append, List.map_cons, List.nodup_middle, List.nodup_cons,
    List.mem_append, not_or] at hnodup
  exact hnodup.1

section

variable (hq : q.Sturdy versionList totalTask s) (hm : Shaped versionList totalTask s m)
  (hown : m.writesetKeys q.index = s.writesetKeys q.index)
include hq hm hown

/-- A call can always run from its start to its end. -/
theorem reaches_done_from_start :
    ∃ m', q.Reaches versionList totalTask s Set.univ (.start, m) (.done, m') ∧
      ∀ k ∈ s.writesetKeys q.index, k ∉ q.writeset → ∀ item ∈ (m'.items k).getLast?,
        item.slot ((s.container versionList totalTask k).clamp q.index) = none := by
  obtain ⟨m₁, h₁, hslot⟩ := reaches_from_start hm hq hown (List.nil_append _).symm
  obtain ⟨m₂, h₂⟩ := reaches_done (q := q) h₁.shaped fun e he => hq.writable he
  refine ⟨m₂, (h₁.mono (Set.subset_univ _)).trans (h₂.mono (Set.subset_univ _)),
    fun k hk hws => ?_⟩
  have hkept : m₂.items k = m₁.items k := h₂.kept k fun hmem => hws hmem
  rw [hkept]
  exact hslot k hk hws

/-- A call can always come to the creation of a container for a key that has none. -/
theorem reaches_create_from_start (hk : k ∈ q.writeset) (hnil : m.items k = []) :
    ∃ v rest m', q.Reaches versionList totalTask s {k' | k' ≠ k} (.start, m)
        (.create ⟨k, v⟩ rest, m') ∧
      Writable versionList totalTask s ⟨k, v⟩ ∧ (∀ e ∈ rest, Writable versionList totalTask s e) ∧
      k ∉ rest.map Sigma.fst := by
  obtain ⟨v, before, rest, hentries, hbefore, hrest⟩ := exists_entries_eq hk
  obtain ⟨m₁, h₁, -⟩ := reaches_from_start hm hq hown hentries
  have h₁' : q.Reaches versionList totalTask s {k' | k' ≠ k} (.start, m)
      (.writing (⟨k, v⟩ :: rest), m₁) := h₁.mono fun k' hk' heq => by
    subst heq
    exact hk'.elim hbefore fun hold => hold.2 hk
  have hnil₁ : m₁.items k = [] := (h₁'.kept k fun hne => hne rfl).trans hnil
  have hwritable : ∀ e ∈ ⟨k, v⟩ :: rest, Writable versionList totalTask s e := fun e he =>
    hq.writable (hentries ▸ List.mem_append_right before he)
  refine ⟨v, rest, m₁, h₁'.trans ⟨.single (.loadMissing hnil₁), h₁.shaped, fun _ _ => rfl,
    fun _ _ => rfl⟩, hwritable _ mem_cons_self,
    fun e he => hwritable e (mem_cons_of_mem _ he), hrest⟩

end

/-- Call `i` stands at `t`, and the other one at `u`. -/
def standing (i : Bool) (t u : Publisher) : Bool → Publisher := fun b => if b = i then t else u

theorem standing_same (i : Bool) (t : Publisher) : standing i t t = fun _ => t := by
  funext b
  exact ite_self t

/-- Call `i` goes on while the other one waits. -/
theorem run_first {t t' : Publisher} (u : Publisher)
    (h : (p i).Steps versionList totalTask (t, m) (t', m')) :
    Publication.Run versionList totalTask p (standing i t u, m) (standing i t' u, m') := by
  have hown : (p i).Steps versionList totalTask (standing i t u i, m) (t', m') := by
    simpa [standing] using h
  have hsolo := Interleaving.Run.solo (fun i => (p i).Step versionList totalTask) i hown
  have hlocals : Function.update (standing i t u) i t' = standing i t' u := by
    funext b
    cases b <;> cases i <;> rfl
  rwa [hlocals] at hsolo

/-- The other call goes on while call `i` waits. -/
theorem run_second {u u' : Publisher} (t : Publisher)
    (h : (p (!i)).Steps versionList totalTask (u, m) (u', m')) :
    Publication.Run versionList totalTask p (standing i t u, m) (standing i t u', m') := by
  have hflip : ∀ u, standing i t u = standing (!i) u t := by
    intro u
    funext b
    cases b <;> cases i <;> rfl
  rw [hflip, hflip]
  exact run_first t h

/-- The two calls in turn. -/
theorem exists_run_in_turn (hp : ∀ b, (p b).Sturdy versionList totalTask s) (i : Bool)
    (hindex : (p i).index ≠ (p (!i)).index) :
    ∃ m, Publication.Run versionList totalTask p
        (fun _ => .start, .of s.multiVersionMap s.txWritesetKeys) (fun _ => .done, m) ∧
      Shaped versionList totalTask s m ∧
      ∀ k ∈ s.writesetKeys (p (!i)).index, k ∉ (p (!i)).writeset → ∀ item ∈ (m.items k).getLast?,
        item.slot ((s.container versionList totalTask k).clamp (p (!i)).index) = none := by
  obtain ⟨m₁, h₁, -⟩ :=
    reaches_done_from_start (hp i) (shaped_of versionList totalTask s) rfl
  have hown : m₁.writesetKeys (p (!i)).index = s.writesetKeys (p (!i)).index :=
    congrArg (fun keys => Option.getD keys []) (h₁.recorded _ hindex.symm)
  obtain ⟨m₂, h₂, hslot⟩ := reaches_done_from_start (hp (!i)) h₁.shaped hown
  refine ⟨m₂, ?_, h₂.shaped, hslot⟩
  rw [← standing_same i .start, ← standing_same i .done]
  exact (run_first .start h₁.steps).trans (run_second .done h₂.steps)

/-- **The race**: two calls miss the same key, and the second container replaces the first
one together with the version written to it. -/
theorem exists_run_losing (hp : ∀ b, (p b).Sturdy versionList totalTask s) (i : Bool)
    (hindex : (p i).index ≠ (p (!i)).index) (htask : (p (!i)).index < totalTask)
    (hi : k ∈ (p i).writeset) (hj : k ∈ (p (!i)).writeset)
    (hlook : s.multiVersionMap.lookup k = none) :
    ∃ m item, Publication.Run versionList totalTask p
        (fun _ => .start, .of s.multiVersionMap s.txWritesetKeys) (fun _ => .done, m) ∧
      (m.items k).getLast? = some item ∧ item.slot (p i).index = none := by
  have hnil : (SharedMaps.of s.multiVersionMap s.txWritesetKeys).items k = [] := by
    simp [SharedMaps.of, hlook]
  -- both calls come to the creation of a container
  obtain ⟨v, rest, m₁, h₁, hentry, hrest, -⟩ :=
    reaches_create_from_start (hp i) (shaped_of versionList totalTask s) rfl hi hnil
  have hnil₁ : m₁.items k = [] := (h₁.kept k fun hne => hne rfl).trans hnil
  have hown : m₁.writesetKeys (p (!i)).index = s.writesetKeys (p (!i)).index :=
    congrArg (fun keys => Option.getD keys []) (h₁.recorded _ hindex.symm)
  obtain ⟨v', rest', m₂, h₂, hentry', hrest', hk'⟩ :=
    reaches_create_from_start (hp (!i)) h₁.shaped hown hj hnil₁
  -- the first call finishes, then the second one stores its own container
  obtain ⟨item₃, m₃, h₃, -, -⟩ := reaches_create (p := p i) h₂.shaped rest hlook hentry
  obtain ⟨m₄, h₄⟩ := reaches_done (q := p i) h₃.shaped hrest
  obtain ⟨item, m₅, h₅, hitems, hput⟩ :=
    reaches_create (p := p (!i)) h₄.shaped rest' hlook hentry'
  obtain ⟨m₆, h₆⟩ := reaches_done (q := p (!i)) h₅.shaped hrest'
  refine ⟨m₆, item, ?_, ?_, ?_⟩
  · rw [← standing_same i .start, ← standing_same i .done]
    exact (((run_first .start h₁.steps).trans (run_second _ h₂.steps)).trans
      (run_first _ (h₃.steps.trans h₄.steps))).trans (run_second .done (h₅.steps.trans h₆.steps))
  · have hkept : m₆.items k = m₅.items k := h₆.kept k hk'
    have hlast : m₅.items k = m₄.items k ++ [item] := hitems
    rw [hkept, hlast, List.getLast?_append]
    rfl
  · rw [hput.slot_eq, clamp_of_fits (fits_newVersions htask), if_neg hindex,
      slot_newVersions]

/-- **When no write is lost.** For two calls at different indices below `totalTask`, each of
which returns when it runs alone, every interleaving keeps the writes of both exactly when
the calls do not clash. -/
theorem noLostWrite_iff (hindex : (p false).index ≠ (p true).index)
    (htask : ∀ b, (p b).index < totalTask)
    (hreturns : ∀ b, ∃ s', (Store.setWriteset versionList (p b).index (p b).incarnation
      (p b).writeset totalTask).run s = .ok ⟨⟩ s') :
    NoLostWrite versionList totalTask s p ↔ NoClash s p := by
  have hne : ∀ i j, i ≠ j → (p i).index ≠ (p j).index := by
    intro i j hij
    cases i <;> cases j
    · exact absurd rfl hij
    · exact hindex
    · exact hindex.symm
    · exact absurd rfl hij
  have hp : ∀ b, (p b).Sturdy versionList totalTask s := fun b =>
    (hreturns b).elim fun _ h => Publication.sturdy_of_run (Nat.zero_lt_of_lt (htask b)) h
  constructor
  · intro hall
    refine ⟨fun i k hk item hlook => ?_, fun i j hij k hi hj hlook => ?_,
      fun i j hij k hk hrec hws item hlook hclamp => ?_⟩
    · obtain ⟨v, hv⟩ := mem_iff_exists_lookup.mp hk
      obtain ⟨m, hrun, hshaped, -⟩ := exists_run_in_turn hp i (hne i (!i) (by cases i <;> simp))
      obtain ⟨item', hlast, hslot⟩ := hall m hrun i k v hv
      have hfits := (hshaped.fits_iff k item' (List.mem_of_getLast? hlast) _).mp
        (MultiVersionValue.fits_of_slot hslot)
      rwa [Store.container, hlook, Option.getD_some] at hfits
    · obtain rfl : j = !i := Bool.eq_not_of_ne hij.symm
      obtain ⟨v, hv⟩ := mem_iff_exists_lookup.mp hi
      obtain ⟨m, item, hrun, hlast, hslot⟩ :=
        exists_run_losing hp i (hne i _ hij) (htask _) hi hj hlook
      obtain ⟨item', hlast', hslot'⟩ := hall m hrun i k v hv
      obtain rfl := Option.some.inj (hlast.symm.trans hlast')
      rw [hslot] at hslot'
      cases hslot'
    · obtain rfl : j = !i := Bool.eq_not_of_ne hij.symm
      obtain ⟨v, hv⟩ := mem_iff_exists_lookup.mp hk
      obtain ⟨m, hrun, -, hnone⟩ := exists_run_in_turn hp i (hne i _ hij)
      obtain ⟨item', hlast, hslot⟩ := hall m hrun i k v hv
      have hempty := hnone k hrec hws item' hlast
      rw [Store.container, hlook, Option.getD_some, hclamp, hslot] at hempty
      cases hempty
  · exact fun hclash => hclash.noLostWrite hne htask

/-- Two transactions that write the same new key. -/
def newKeyWriters : Bool → Publication
  | false => ⟨0, 0, AList.singleton [1] (some [10])⟩
  | true => ⟨1, 0, AList.singleton [1] (some [11])⟩

/-- Two calls that write the same new key. -/
theorem noLostWrite_iff_newKeyWriters :
    NoLostWrite false 2 (newMultiVersionStore ()) newKeyWriters ↔
      NoClash (newMultiVersionStore ()) newKeyWriters := by
  refine noLostWrite_iff (by decide) (fun b => ?_) (fun b => ?_)
  · cases b <;> decide
  · cases b <;> exact ⟨_, rfl⟩

/-- **A lost write.** On an empty store, an interleaving of the two calls ends without the
version of the first transaction. -/
theorem noLostWrite_fails :
    ¬ NoLostWrite false 2 (newMultiVersionStore ()) newKeyWriters := by
  intro hall
  have hsturdy : ∀ b, (newKeyWriters b).Sturdy false 2 (newMultiVersionStore ()) := by
    intro b
    cases b
    · exact Publication.sturdy_of_run (by decide) rfl
    · exact Publication.sturdy_of_run (by decide) rfl
  obtain ⟨m, item, hrun, hlast, hslot⟩ :=
    exists_run_losing hsturdy false (by decide) (by decide) (k := [1]) (by decide) (by decide) rfl
  obtain ⟨item', hlast', hslot'⟩ := hall m hrun false [1] (some [10]) rfl
  obtain rfl := Option.some.inj (hlast.symm.trans hlast')
  rw [hslot] at hslot'
  cases hslot'

end Clash

end MelodiaStore
