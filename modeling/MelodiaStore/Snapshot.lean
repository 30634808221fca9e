import MelodiaStore.CacheStore

/-!
# Iterators of the Cache Store are Snapshots

While iterators of a cache store are open, keys may be set and deleted and further iterators
made, in any order with the calls of the open ones. Each iterator keeps to the entries that
were live in its range when it was made: making it copies the sorted cache, and what happens
to the store afterwards does not reach the copy.

The statement compares the store with its open iterators to a plain map with a list of
entries for each iterator. The lists change by `Next` only.

## Main results

* `CacheSession.iterators_are_snapshots`: so is every interleaving of calls.
-/

namespace MelodiaStore

/-! ### The calls of an iterator -/

/-- A call of an iterator. -/
inductive CursorCall
  | valid
  | key
  | value
  | next
  deriving DecidableEq

/-- What a call returns. -/
inductive CursorAnswer
  | done
  | valid (valid : Bool)
  | key (key : Bytes)
  | value (value : Slice)

/-- Perform a call of an iterator. -/
def CacheMergeIterator.perform : CursorCall → EStateM Panic CacheMergeIterator CursorAnswer
  | .valid => reading fun it => .ok (.valid it.valid)
  | .key => reading fun it => it.key.map .key
  | .value => reading fun it => it.value.map .value
  | .next => updating CacheMergeIterator.next .done

/-- A cursor over the list of entries ahead of it. -/
inductive CursorStep :
    CursorCall → List (Bytes × Bytes) → Except Panic CursorAnswer → List (Bytes × Bytes) → Prop
  | valid {l : List (Bytes × Bytes)} : CursorStep .valid l (.ok (.valid !l.isEmpty)) l
  | key {e : Bytes × Bytes} {l : List (Bytes × Bytes)} :
      CursorStep .key (e :: l) (.ok (.key e.1)) (e :: l)
  | value {e : Bytes × Bytes} {l : List (Bytes × Bytes)} :
      CursorStep .value (e :: l) (.ok (.value (some e.2))) (e :: l)
  | next {e : Bytes × Bytes} {l : List (Bytes × Bytes)} : CursorStep .next (e :: l) (.ok .done) l
  | exhausted {call : CursorCall} (h : call ≠ .valid) :
      CursorStep call [] (.error (.error "invalid cacheMergeIterator")) []

/-- The iterator has the entries of the list ahead. -/
def CacheMergeIterator.Shows (it : CacheMergeIterator) (l : List (Bytes × Bytes)) : Prop :=
  it.Ready ∧ it.entries = l

/-- **An iterator is a cursor** over the entries it has ahead. -/
theorem CacheMergeIterator.simulates_cursor :
    Simulates Shows CacheMergeIterator.perform CursorStep fun _ => True := by
  rintro call it l - ⟨hready, rfl⟩
  cases call with
  | valid =>
    rw [CacheMergeIterator.perform, outcome_reading, hready.valid_eq]
    exact ⟨it.entries, .valid, hready, rfl⟩
  | key =>
    rw [CacheMergeIterator.perform, outcome_reading]
    cases hes : it.entries with
    | nil =>
      rw [CacheMergeIterator.key, hready.assertValid_nil hes]
      exact ⟨[], .exhausted (by decide), hready, hes⟩
    | cons e es =>
      rw [hready.key hes]
      exact ⟨e :: es, .key, hready, hes⟩
  | value =>
    rw [CacheMergeIterator.perform, outcome_reading]
    cases hes : it.entries with
    | nil =>
      rw [CacheMergeIterator.value, hready.assertValid_nil hes]
      exact ⟨[], .exhausted (by decide), hready, hes⟩
    | cons e es =>
      rw [hready.value hes]
      exact ⟨e :: es, .value, hready, hes⟩
  | next =>
    rw [CacheMergeIterator.perform]
    cases hes : it.entries with
    | nil =>
      have hnext : it.next = .error (.error "invalid cacheMergeIterator") := by
        rw [CacheMergeIterator.next, hready.assertValid_nil hes]
        rfl
      rw [outcome_updating_of_error hnext]
      exact ⟨[], .exhausted (by decide), hready, hes⟩
    | cons e es =>
      obtain ⟨it', hnext, hready', hes'⟩ := hready.next hes
      rw [outcome_updating_of_ok hnext]
      exact ⟨es, .next, hready', hes'⟩

/-! ### A store with open iterators -/

/-- A cache store and the iterators that were made of it. -/
structure CacheSession (β : Type) where
  store : CacheKVStore β
  iterators : List CacheMergeIterator

/-- A call of the store, or of the iterator with a number. -/
inductive SessionCall
  | set (key : Bytes) (value : Slice)
  | delete (key : Bytes)
  | iterator (order : Traversal Bytes Unit) (start stop : Slice) (ascending : Bool)
  | cursor (i : ℕ) (call : CursorCall)

namespace CacheSession

variable {β : Type}

/-- Run a computation on the iterator with a number. -/
def onIterator {α : Type} (i : ℕ) (x : EStateM Panic CacheMergeIterator α) :
    EStateM Panic (CacheSession β) α := fun s =>
  match s.iterators[i]? with
  | none => .error .nilInterface s
  | some it =>
    (zoom (fun _ => it) (fun it s => { s with iterators := s.iterators.set i it }) x).run s

/-- Perform a call. -/
def perform [KVStore β] : SessionCall → EStateM Panic (CacheSession β) CursorAnswer
  | .set key value =>
    zoom store (fun c s => { s with store := c }) (updating (CacheKVStore.set · key value) .done)
  | .delete key =>
    zoom store (fun c s => { s with store := c }) (updating (CacheKVStore.delete · key) .done)
  | .iterator order start stop ascending => do
    let it ← zoom store (fun c s => { s with store := c })
      (CacheKVStore.iterator order start stop ascending)
    modify fun s => { s with iterators := s.iterators ++ [it] }
    pure .done
  | .cursor i call => onIterator i (CacheMergeIterator.perform call)

end CacheSession

/-! ### The plain map and the lists -/

/-- A plain map, and for each iterator the entries it has ahead. -/
structure Snapshots where
  live : Bytes → Slice
  cursors : List (List (Bytes × Bytes))

/-- What a call does to the map and the lists. A list is made from the map as it is, and
changes with the calls of its iterator only. -/
inductive Snapshots.Step : SessionCall → Snapshots → Except Panic CursorAnswer → Snapshots → Prop
  | set {key : Bytes} {value : Slice} {m : Snapshots}
      (h : (do assertValidKey key; assertValidValue value) = .ok ()) :
      Step (.set key value) m (.ok .done) { m with live := Function.update m.live key value }
  | setRefused {key : Bytes} {value : Slice} {m : Snapshots} {e : Panic}
      (h : (do assertValidKey key; assertValidValue value) = .error e) :
      Step (.set key value) m (.error e) m
  | delete {key : Bytes} {m : Snapshots} (h : assertValidKey key = .ok ()) :
      Step (.delete key) m (.ok .done) { m with live := Function.update m.live key none }
  | deleteRefused {key : Bytes} {m : Snapshots} {e : Panic} (h : assertValidKey key = .error e) :
      Step (.delete key) m (.error e) m
  | iterator {order : Traversal Bytes Unit} {start stop : Slice} {ascending : Bool}
      {m : Snapshots} {l : List (Bytes × Bytes)}
      (sorted : l.Pairwise fun a b => Before ascending a.1 b.1)
      (mem : ∀ k v, (k, v) ∈ l ↔ isKeyInDomain k start stop = true ∧ m.live k = some v) :
      Step (.iterator order start stop ascending) m (.ok .done)
        { m with cursors := m.cursors ++ [l] }
  | iteratorRefused {order : Traversal Bytes Unit} {start stop : Slice} {ascending : Bool}
      {m : Snapshots} {e : Panic}
      (h : CacheMaps.reversed start stop = true ∨ start = some [] ∨ stop = some []) :
      Step (.iterator order start stop ascending) m (.error e) m
  | cursor {i : ℕ} {call : CursorCall} {m : Snapshots} {l l' : List (Bytes × Bytes)}
      {r : Except Panic CursorAnswer} (h : m.cursors[i]? = some l) (step : CursorStep call l r l') :
      Step (.cursor i call) m r { m with cursors := m.cursors.set i l' }
  | noCursor {i : ℕ} {call : CursorCall} {m : Snapshots} (h : m.cursors[i]? = none) :
      Step (.cursor i call) m (.error .nilInterface) m

namespace CacheSession

variable {β : Type} [LawfulKVStore β]

/-- The store holds the map, and the iterators have the entries of their lists ahead. -/
structure Mirrors (s : CacheSession β) (m : Snapshots) : Prop where
  live : s.store.contents = m.live
  length : s.iterators.length = m.cursors.length
  shows : ∀ (i : ℕ) (it : CacheMergeIterator) (l : List (Bytes × Bytes)),
    s.iterators[i]? = some it → m.cursors[i]? = some l → it.Shows l

variable {s : CacheSession β} {m : Snapshots} {it : CacheMergeIterator} {l : List (Bytes × Bytes)}

/-- A change of the store does not reach the iterators. -/
theorem Mirrors.setStore (h : s.Mirrors m) {c : CacheKVStore β} {live : Bytes → Slice}
    (hlive : c.contents = live) : Mirrors { s with store := c } { m with live := live } :=
  ⟨hlive, h.length, h.shows⟩

/-- A new iterator joins the others. -/
theorem Mirrors.push (h : s.Mirrors m) (hit : it.Shows l) :
    Mirrors { s with iterators := s.iterators ++ [it] } { m with cursors := m.cursors ++ [l] } := by
  refine ⟨h.live, by simp [h.length], fun i it' l' hi hl => ?_⟩
  rcases lt_or_ge i s.iterators.length with hlt | hge
  · rw [List.getElem?_append_left hlt] at hi
    rw [List.getElem?_append_left (h.length ▸ hlt)] at hl
    exact h.shows i it' l' hi hl
  · rw [List.getElem?_append_right hge, List.getElem?_singleton] at hi
    rw [List.getElem?_append_right (h.length ▸ hge), List.getElem?_singleton, ← h.length] at hl
    split at hi
    · next hzero =>
      rw [if_pos hzero] at hl
      obtain rfl := Option.some.inj hi
      obtain rfl := Option.some.inj hl
      exact hit
    · cases hi

/-- A call of one iterator does not reach the others. -/
theorem Mirrors.setIterator (h : s.Mirrors m) (i : ℕ) (hit : it.Shows l) :
    Mirrors { s with iterators := s.iterators.set i it }
      { m with cursors := m.cursors.set i l } := by
  refine ⟨h.live, by simp [h.length], fun j it' l' hj hl => ?_⟩
  rw [List.getElem?_set] at hj hl
  split at hj
  · next hij =>
    rw [if_pos hij] at hl
    split at hj
    · next hlt =>
      rw [if_pos (h.length ▸ hlt)] at hl
      obtain rfl := Option.some.inj hj
      obtain rfl := Option.some.inj hl
      exact hit
    · cases hj
  · next hij =>
    rw [if_neg hij] at hl
    exact h.shows j it' l' hj hl

/-- **Every call is a step of the map and the lists.** -/
theorem simulates_snapshots :
    Simulates (Mirrors (β := β)) perform Snapshots.Step fun _ => True := by
  intro call s m _ h
  cases call with
  | set key value =>
    rw [perform, outcome_zoom]
    rcases s.store.set_cases key value with ⟨e, hcheck, hrun⟩ | ⟨hcheck, c, hrun, -, -, hlive⟩
    · rw [outcome_updating_of_error hrun]
      exact ⟨m, .setRefused hcheck, h⟩
    · rw [outcome_updating_of_ok hrun]
      exact ⟨_, .set hcheck, h.setStore (h.live ▸ hlive)⟩
  | delete key =>
    rw [perform, outcome_zoom]
    rcases s.store.delete_cases key with ⟨e, hcheck, hrun⟩ | ⟨hcheck, c, hrun, -, -, hlive⟩
    · rw [outcome_updating_of_error hrun]
      exact ⟨m, .deleteRefused hcheck, h⟩
    · rw [outcome_updating_of_ok hrun]
      exact ⟨_, .delete hcheck, h.setStore (h.live ▸ hlive)⟩
  | iterator order start stop ascending =>
    have hsnd := CacheKVStore.snd_outcome_iterator order start stop ascending s.store
    have hmoved : (s.store.dirtyItems order start stop).contents = m.live := by
      rw [CacheKVStore.contents_dirtyItems, h.live]
    cases hrun : (CacheKVStore.iterator order start stop ascending).run s.store with
    | ok it c =>
      obtain ⟨rfl, hready, hsorted, hmem⟩ := CacheKVStore.iterator_eq_ok hrun
      rw [perform, outcome_bind_ok (outcome_of_ok (run_zoom_eq_ok.mpr ⟨_, hrun, rfl⟩))]
      exact ⟨_, .iterator hsorted (h.live ▸ hmem), (h.setStore hmoved).push ⟨hready, rfl⟩⟩
    | error e c =>
      rw [outcome, hrun] at hsnd
      obtain rfl : c = s.store.dirtyItems order start stop := hsnd
      rw [outcome, perform, EStateM.run_bind, run_zoom, hrun]
      refine ⟨m, .iteratorRefused ?_, h.setStore hmoved⟩
      by_contra hproper
      rw [not_or, not_or, Bool.not_eq_true] at hproper
      obtain ⟨it, hok⟩ :=
        s.store.exists_iterator order ascending hproper.1 hproper.2.1 hproper.2.2
      cases hrun.symm.trans hok
  | cursor i call =>
    rw [perform]
    cases hit : s.iterators[i]? with
    | none =>
      have hnone : m.cursors[i]? = none := by
        rw [List.getElem?_eq_none_iff] at hit ⊢
        exact h.length ▸ hit
      simp only [outcome, onIterator, EStateM.run, hit]
      exact ⟨m, .noCursor hnone, h⟩
    | some it =>
      obtain ⟨l, hl⟩ : ∃ l, m.cursors[i]? = some l := by
        obtain ⟨hlt, -⟩ := List.getElem?_eq_some_iff.mp hit
        exact ⟨_, List.getElem?_eq_getElem (h.length ▸ hlt)⟩
      obtain ⟨l', hstep, hshows⟩ :=
        CacheMergeIterator.simulates_cursor call it l trivial (h.shows i it l hit hl)
      have hout : outcome (onIterator i (CacheMergeIterator.perform call)) s =
          outcome (zoom (fun _ => it) (fun it s => { s with iterators := s.iterators.set i it })
            (CacheMergeIterator.perform call)) s := by
        simp only [outcome, onIterator, EStateM.run, hit]
      rw [hout, outcome_zoom]
      exact ⟨_, .cursor hl hstep, h.setIterator i hshows⟩

/-- **Iterators are snapshots.** Whatever the interleaving of calls, each iterator answers as a
cursor over the entries that were live in its range when it was made. -/
theorem iterators_are_snapshots (store : CacheKVStore β) (calls : List SessionCall) :
    ∃ m, Allowed Snapshots.Step calls ⟨store.contents, []⟩
      (outcomes perform calls ⟨store, []⟩).1 m := by
  have hstart : Mirrors ⟨store, []⟩ ⟨store.contents, []⟩ := ⟨rfl, rfl, fun i it l h _ => nomatch h⟩
  obtain ⟨m, hallowed, -⟩ := simulates_snapshots.outcomes (fun _ _ => trivial) hstart
  exact ⟨m, hallowed⟩

end CacheSession

end MelodiaStore
