import MelodiaStore.CacheStore

/-!
# The Cache Store as a Plain Map

A cache store over a parent store behaves as one plain map that starts with the contents of
the parent. This module says so for whole sequences of calls: reads and traversals answer
from the map that received the writes, and the parent holds what that map was at the last
`Write`.

## Main results

* `CacheKVStore.faithful_overlay`: every sequence of calls is a run of the plain map.
-/

namespace MelodiaStore

/-! ### The calls -/

/-- A call of a cache store, with the order in which it happens to visit a map. -/
inductive CacheCall
  | set (key : Bytes) (value : Slice)
  | delete (key : Bytes)
  | get (key : Bytes)
  | has (key : Bytes)
  | write (order : Traversal Bytes CValue)
  | traverse (order : Traversal Bytes Unit) (start stop : Slice) (ascending : Bool)

/-- What a call returns. -/
inductive CacheAnswer
  | done
  | value (value : Slice)
  | found (found : Bool)
  | pairs (pairs : List (Bytes × Slice))

namespace CacheCall

/-- The checks a call makes first. -/
def check : CacheCall → Except Panic Unit
  | set key value => do assertValidKey key; assertValidValue value
  | delete key => assertValidKey key
  | get key => assertValidKey key
  | has key => assertValidKey key
  | write _ => .ok ()
  | traverse _ _ _ _ => .ok ()

/-- A traversal is over a range that is not reversed, with bounds that are `nil` or
non-empty. -/
def InScope : CacheCall → Prop
  | traverse _ start stop _ =>
    CacheMaps.reversed start stop = false ∧ start ≠ some [] ∧ stop ≠ some []
  | _ => True

end CacheCall

namespace CacheKVStore

variable {β : Type}

/-- Perform a call. -/
def perform [KVStore β] : CacheCall → EStateM Panic (CacheKVStore β) CacheAnswer
  | .set key value => updating (set · key value) .done
  | .delete key => updating (delete · key) .done
  | .get key => reading fun store => (store.get key).map .value
  | .has key => reading fun store => (store.has key).map .found
  | .write order => do
    write order
    pure .done
  | .traverse order start stop ascending => do
    let pairs ← traverse order start stop ascending
    pure (.pairs pairs)

end CacheKVStore

/-! ### The plain map -/

/-- A plain map `live`, with the map `base` that the last `Write` left. -/
structure Plain where
  live : Bytes → Slice
  base : Bytes → Slice

/-- What a call does to a plain map, and what it answers. -/
inductive Plain.Step : CacheCall → Plain → Except Panic CacheAnswer → Plain → Prop
  | refused {call : CacheCall} {m : Plain} {e : Panic} (h : call.check = .error e) :
      Step call m (.error e) m
  | set {key : Bytes} {value : Slice} {m : Plain}
      (h : (CacheCall.set key value).check = .ok ()) :
      Step (.set key value) m (.ok .done) { m with live := Function.update m.live key value }
  | delete {key : Bytes} {m : Plain} (h : (CacheCall.delete key).check = .ok ()) :
      Step (.delete key) m (.ok .done) { m with live := Function.update m.live key none }
  | get {key : Bytes} {m : Plain} (h : (CacheCall.get key).check = .ok ()) :
      Step (.get key) m (.ok (.value (m.live key))) m
  | has {key : Bytes} {m : Plain} (h : (CacheCall.has key).check = .ok ()) :
      Step (.has key) m (.ok (.found (m.live key).isSome)) m
  | write {order : Traversal Bytes CValue} {m : Plain} :
      Step (.write order) m (.ok .done) { m with base := m.live }
  | traverse {order : Traversal Bytes Unit} {start stop : Slice} {ascending : Bool} {m : Plain}
      {l : List (Bytes × Bytes)} (sorted : l.Pairwise fun a b => Before ascending a.1 b.1)
      (mem : ∀ k v, (k, v) ∈ l ↔ isKeyInDomain k start stop = true ∧ m.live k = some v) :
      Step (.traverse order start stop ascending) m
        (.ok (.pairs (l.map fun e => (e.1, some e.2)))) m

namespace CacheKVStore

variable {β : Type} [LawfulKVStore β]

/-- The store holds the map, and its parent what the last `Write` left. -/
structure Overlays (store : CacheKVStore β) (m : Plain) : Prop where
  live : store.contents = m.live
  base : LawfulBasicKVStore.contents store.parent = m.base

/-- A new store shows its parent. -/
theorem overlays_newStore (parent : β) :
    (newStore parent).Overlays
      ⟨LawfulBasicKVStore.contents parent, LawfulBasicKVStore.contents parent⟩ :=
  ⟨rfl, rfl⟩

/-- **Every call is a step of the plain map.** -/
theorem simulates_plain :
    Simulates (Overlays (β := β)) perform Plain.Step CacheCall.InScope := by
  intro call store m hscope h
  cases call with
  | set key value =>
    rw [perform]
    rcases store.set_cases key value with
      ⟨e, hcheck, hrun⟩ | ⟨hcheck, store', hrun, hparent, -, hlive⟩
    · rw [outcome_updating_of_error hrun]
      exact ⟨m, .refused hcheck, h⟩
    · rw [outcome_updating_of_ok hrun]
      refine ⟨_, .set hcheck, ?_, hparent ▸ h.base⟩
      rw [hlive, h.live]
  | delete key =>
    rw [perform]
    rcases store.delete_cases key with
      ⟨e, hcheck, hrun⟩ | ⟨hcheck, store', hrun, hparent, -, hlive⟩
    · rw [outcome_updating_of_error hrun]
      exact ⟨m, .refused hcheck, h⟩
    · rw [outcome_updating_of_ok hrun]
      refine ⟨_, .delete hcheck, ?_, hparent ▸ h.base⟩
      rw [hlive, h.live]
  | get key =>
    rw [perform, outcome_reading]
    rcases store.get_cases key with ⟨e, hcheck, hrun⟩ | ⟨hcheck, hrun⟩
    · rw [hrun]
      exact ⟨m, .refused hcheck, h⟩
    · rw [hrun, h.live]
      exact ⟨m, .get hcheck, h⟩
  | has key =>
    rw [perform, outcome_reading]
    rcases store.get_cases key with ⟨e, hcheck, hrun⟩ | ⟨hcheck, hrun⟩
    · rw [has, hrun]
      exact ⟨m, .refused hcheck, h⟩
    · rw [has, hrun, h.live]
      exact ⟨m, .has hcheck, h⟩
  | write order =>
    obtain ⟨p', hrun, hbase, hlive⟩ := store.run_write order
    rw [perform, outcome_bind_ok (outcome_of_ok hrun)]
    exact ⟨_, .write, hlive.trans h.live, hbase.trans h.live⟩
  | traverse order start stop ascending =>
    obtain ⟨hrange, hstart, hstop⟩ := hscope
    obtain ⟨l, hrun, hsorted, hmem⟩ := store.exists_traverse order ascending hrange hstart hstop
    rw [perform, outcome_bind_ok (outcome_of_ok hrun)]
    exact ⟨m, .traverse hsorted (h.live ▸ hmem), (contents_dirtyItems ..).trans h.live, h.base⟩

/-- **A cache store is a faithful overlay.** Every sequence of calls answers as the plain map
does that starts with the contents of the parent, and at its end the parent holds what that
map was at the last `Write`. -/
theorem faithful_overlay (parent : β) (calls : List CacheCall)
    (hscope : ∀ call ∈ calls, call.InScope) :
    ∃ m, Allowed Plain.Step calls
        ⟨LawfulBasicKVStore.contents parent, LawfulBasicKVStore.contents parent⟩
        (outcomes perform calls (newStore parent)).1 m ∧
      LawfulBasicKVStore.contents (outcomes perform calls (newStore parent)).2.parent = m.base := by
  obtain ⟨m, hallowed, hm⟩ := simulates_plain.outcomes hscope (overlays_newStore parent)
  exact ⟨m, hallowed, hm.base⟩

/-- A key is set, seen by a traversal, deleted and set again under another key, and written
back. -/
theorem faithful_overlay_of_set_traverse_delete_write :
    ∃ calls : List CacheCall, calls =
        [.set [1] (some [5]), .traverse .listed none (some [3]) true, .delete [1],
          .set [2] (some [6]), .get [1], .write .listed, .traverse .listed (some [1]) none false] ∧
      (∀ call ∈ calls, call.InScope) ∧
      ∃ m, Allowed Plain.Step calls ⟨DbAdapter.empty.lookup, DbAdapter.empty.lookup⟩
          (outcomes perform calls (newStore DbAdapter.empty)).1 m ∧
        (outcomes perform calls (newStore DbAdapter.empty)).2.parent.lookup = m.base := by
  refine ⟨_, rfl, ?_⟩
  have hscope : ∀ call ∈ [CacheCall.set [1] (some [5]), .traverse .listed none (some [3]) true,
      .delete [1], .set [2] (some [6]), .get [1], .write .listed,
      .traverse .listed (some [1]) none false], call.InScope := by
    simp [CacheCall.InScope, CacheMaps.reversed]
  exact ⟨hscope, faithful_overlay DbAdapter.empty _ hscope⟩

end CacheKVStore

end MelodiaStore
