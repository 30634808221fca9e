import MelodiaStore.Snapshot

/-!
# The Two Merge Iterators are Equivalent

The repository has two merge iterators. `cacheMergeIterator` skips deletions when it is made and
after each `Next`, and keeps a flag in between (`MelodiaStore.CacheMergeIterator`).
`mvsMergeIterator` keeps no flag and skips deletions in every call, `Valid` included
(`MelodiaStore.MergeIterator`). Here both run over the same two iterators, a parent whose
entries have values and a cache where a `nil` value is a deletion, the second one with a read
set handler that does nothing.

Both are compared with one cursor over a list, the overlay of the cache over the parent. They
differ in the text of the panic with which an exhausted iterator answers.

## Main results

* `merge_iterators_agree`: so the two agree, and enumerate the overlay.
-/

namespace MelodiaStore

/-! ### The iterators that are merged -/

/-- A tree with the items of a list. -/
def BTree.ofList (items : List (Bytes × Slice)) : BTree :=
  items.foldl (fun m e => m.insert e.1 e.2) ∅

section Items

variable {ascending : Bool} {cache : List (Bytes × Slice)}

/-- The items of a sorted list are looked up at their keys. -/
theorem BTree.value_ofList (hcache : cache.Pairwise fun a b => Before ascending a.1 b.1)
    {e : Bytes × Slice} (he : e ∈ cache) : (BTree.ofList cache).value e.1 = e.2 := by
  have hnodup : (cache.map Prod.fst).Nodup := List.pairwise_map.mpr (hcache.imp Before.ne)
  rw [BTree.value, BTree.ofList, lookup_foldl_insert_of_nodup hnodup he, Option.getD_some]

theorem mem_keys_value_iff (hcache : cache.Pairwise fun a b => Before ascending a.1 b.1)
    {k : Bytes} {w : Slice} :
    k ∈ cache.map Prod.fst ∧ (BTree.ofList cache).value k = w ↔ (k, w) ∈ cache := by
  constructor
  · rintro ⟨hk, rfl⟩
    obtain ⟨e, he, rfl⟩ := List.mem_map.mp hk
    rw [BTree.value_ofList hcache he]
    exact he
  · intro he
    exact ⟨List.mem_map_of_mem he, BTree.value_ofList hcache he⟩

theorem not_mem_keys_iff {k : Bytes} : k ∉ cache.map Prod.fst ↔ ∀ w, (k, w) ∉ cache := by
  rw [List.mem_map]
  constructor
  · exact fun h w he => h ⟨(k, w), he, rfl⟩
  · rintro h ⟨⟨k, w⟩, he, rfl⟩
    exact h w he

end Items

/-! ### The cursor -/

/-- A cursor over the list of entries ahead of it, which panics with a text of its own. -/
def cursor (message : String) : CursorCall → EStateM Panic (List (Bytes × Bytes)) CursorAnswer
  | .valid => reading fun l => .ok (.valid !l.isEmpty)
  | .key => reading fun l => l.head?.elim (.error (.error message)) fun e => .ok (.key e.1)
  | .value => reading fun l =>
    l.head?.elim (.error (.error message)) fun e => .ok (.value (some e.2))
  | .next => updating (fun l => if l.isEmpty then .error (.error message) else .ok l.tail) .done

/-- The cursor takes the steps of `CursorStep`. -/
theorem outcome_cursor_of_step {call : CursorCall} {l l' : List (Bytes × Bytes)}
    {r : Except Panic CursorAnswer} (h : CursorStep call l r l') :
    outcome (cursor "invalid cacheMergeIterator" call) l = (r, l') := by
  cases h with
  | valid => rfl
  | key => rfl
  | value => rfl
  | next => rfl
  | exhausted hcall =>
    cases call with
    | valid => exact absurd rfl hcall
    | key => rfl
    | value => rfl
    | next => rfl

/-- What a cursor answers does not depend on the text of its panic. -/
theorem toOption_outcomes_cursor (message message' : String) (calls : List CursorCall)
    (l : List (Bytes × Bytes)) :
    (outcomes (cursor message) calls l).1.map Except.toOption =
      (outcomes (cursor message') calls l).1.map Except.toOption := by
  have hcall : ∀ call l, (outcome (cursor message call) l).1.toOption =
      (outcome (cursor message' call) l).1.toOption ∧
      (outcome (cursor message call) l).2 = (outcome (cursor message' call) l).2 := by
    intro call l
    cases call <;> cases l <;> exact ⟨rfl, rfl⟩
  induction calls generalizing l with
  | nil => rfl
  | cons call calls ih =>
    obtain ⟨hfirst, hstate⟩ := hcall call l
    rw [outcomes, outcomes, List.map_cons, List.map_cons, hfirst, hstate, ih]

/-- The calls of a loop over `n` entries: `for ; it.Valid(); it.Next()`, with `Key` and `Value`
in its body. -/
def walk : ℕ → List CursorCall
  | 0 => [.valid]
  | n + 1 => .valid :: .key :: .value :: .next :: walk n

/-- What the loop is answered when it meets the entries of a list. -/
def walked : List (Bytes × Bytes) → List (Except Panic CursorAnswer)
  | [] => [.ok (.valid false)]
  | e :: l =>
    .ok (.valid true) :: .ok (.key e.1) :: .ok (.value (some e.2)) :: .ok .done :: walked l

/-- A cursor walks over its list. -/
theorem outcomes_cursor_walk (message : String) (l : List (Bytes × Bytes)) :
    (outcomes (cursor message) (walk l.length) l).1 = walked l := by
  induction l with
  | nil => rfl
  | cons e l ih => exact congrArg (_ :: _ :: _ :: _ :: ·) ih

/-! ### The eager iterator -/

/-- Its answers are those of a cursor. -/
theorem CacheMergeIterator.outcomes_eq_cursor {it : CacheMergeIterator}
    {l : List (Bytes × Bytes)} (h : it.Shows l) (calls : List CursorCall) :
    (outcomes CacheMergeIterator.perform calls it).1 =
      (outcomes (cursor "invalid cacheMergeIterator") calls l).1 := by
  refine (outcomes_eq (R := CacheMergeIterator.Shows) (fun call it l h => ?_) calls h).1
  obtain ⟨l', hstep, hshows⟩ := CacheMergeIterator.simulates_cursor call it l trivial h
  rw [SameOutcome, outcome_cursor_of_step hstep]
  exact ⟨rfl, hshows⟩

/-! ### The lazy iterator -/

namespace MergeIterator

section Perform

variable (tree : BTree)

/-- Call a method of an iterator that keeps its cursors. A method that panics does so in
`assertValid`, and the cursors stay where the loop has left them. -/
def stepping {α : Type} (answer : α → CursorAnswer)
    (method : MergeIterator → EStateM Panic Unit (α × MergeIterator)) :
    EStateM Panic MergeIterator CursorAnswer := fun it =>
  match stateless (method it) with
  | .ok (a, it') => .ok (answer a) it'
  | .error e =>
    match stateless (it.valid tree.callbacks) with
    | .ok (_, it') => .error e it'
    | .error _ => .error e it

/-- Perform a call of an iterator. -/
def perform : CursorCall → EStateM Panic MergeIterator CursorAnswer
  | .valid => stepping tree .valid fun it => it.valid tree.callbacks
  | .key => stepping tree .key fun it => it.key tree.callbacks
  | .value => stepping tree .value fun it => it.value tree.callbacks
  | .next => stepping tree (fun _ => .done) fun it => do
    let it ← it.next tree.callbacks
    pure ((), it)

/-- The iterator has the entries of the list ahead, whether or not its cursors are there yet. -/
def Shows (it : MergeIterator) (l : List (Bytes × Bytes)) : Prop :=
  (∃ L, it.Within L fun _ => True) ∧ it.entries tree.value = l

end Perform

variable {tree : BTree} {it : MergeIterator} {L : Bytes → Prop}

/-- What `Valid` answers. -/
theorem stateless_valid (h : it.Within L fun _ => True) :
    stateless (it.valid tree.callbacks) =
      .ok (!(it.entries tree.value).isEmpty, it.settled tree.value) :=
  (consults_valid (R := ∅) (tree.serves_callbacks L fun _ => True) h trivial).stateless_eq

/-- What `Next`, `Key` and `Value` begin with panics when there is no entry ahead. -/
theorem stateless_exhausted (h : it.Within L fun _ => True) (hes : it.entries tree.value = [])
    {α : Type} (k : MergeIterator → EStateM Panic Unit α) :
    stateless (do
        let (_, it) ← it.valid tree.callbacks
        let it ← assertValid tree.callbacks it
        k it) = .error (.error "invalid mvsMergeIterator") := by
  have hserves := tree.serves_callbacks L fun _ => True
  obtain ⟨s, hrun, -⟩ :=
    (consults_valid (R := ∅) (s := ()) hserves h trivial).exists_run fun _ _ => id
  obtain ⟨s', hagain, -⟩ :=
    (consults_valid (R := ∅) (s := s) hserves (Within.settled h) trivial).exists_run fun _ _ => id
  rw [entries_settled h, hes] at hagain
  have hassert : (assertValid tree.callbacks (it.settled tree.value)).run s =
      .error (.error "invalid mvsMergeIterator") s' := by
    rw [assertValid, run_bind_of_ok hagain]
    rfl
  rw [stateless, run_bind_of_ok hrun, run_bind_eq_error.mpr (.inl hassert)]

/-! A call that returns, and one that panics. -/

section Stepping

variable {α : Type} {answer : α → CursorAnswer}
  {method : MergeIterator → EStateM Panic Unit (α × MergeIterator)}

theorem outcome_stepping_of_ok {a : α} {it' : MergeIterator}
    (hrun : stateless (method it) = .ok (a, it')) :
    outcome (stepping tree answer method) it = (.ok (answer a), it') := by
  simp only [outcome, stepping, EStateM.run, hrun]

theorem outcome_stepping_of_error (h : it.Within L fun _ => True) {e : Panic}
    (hrun : stateless (method it) = .error e) :
    outcome (stepping tree answer method) it = (.error e, it.settled tree.value) := by
  simp only [outcome, stepping, EStateM.run, hrun, stateless_valid h]

end Stepping

variable {l : List (Bytes × Bytes)}

theorem Shows.settled (h : it.Shows tree l) : (it.settled tree.value).Shows tree l := by
  obtain ⟨⟨L, hwithin⟩, hentries⟩ := h
  exact ⟨⟨L, Within.settled hwithin⟩, (entries_settled hwithin).trans hentries⟩

/-- **A call of the lazy iterator** is answered as by the cursor, and its entries ahead are
those of the cursor again. -/
theorem outcome_perform (call : CursorCall) (h : it.Shows tree l) :
    SameOutcome (Shows tree) (perform tree call) it (cursor "invalid mvsMergeIterator" call) l := by
  obtain ⟨L, hwithin⟩ := h.1
  have hserves := tree.serves_callbacks L fun _ => True
  have hsettled := h.settled
  rw [SameOutcome]
  cases call with
  | valid =>
    rw [perform, outcome_stepping_of_ok (stateless_valid hwithin), h.2]
    exact ⟨rfl, hsettled⟩
  | key =>
    rw [perform]
    cases l with
    | nil =>
      rw [outcome_stepping_of_error hwithin (stateless_exhausted hwithin h.2 _)]
      exact ⟨rfl, hsettled⟩
    | cons e l =>
      rw [outcome_stepping_of_ok
        (consults_key (R := ∅) hserves hwithin h.2 trivial).stateless_eq]
      exact ⟨rfl, hsettled⟩
  | value =>
    rw [perform]
    cases l with
    | nil =>
      rw [outcome_stepping_of_error hwithin (stateless_exhausted hwithin h.2 _)]
      exact ⟨rfl, hsettled⟩
    | cons e l =>
      rw [outcome_stepping_of_ok
        (consults_value (R := ∅) hserves hwithin h.2 trivial).stateless_eq]
      exact ⟨rfl, hsettled⟩
  | next =>
    rw [perform]
    cases l with
    | nil =>
      have hnext : stateless (it.next tree.callbacks) = _ :=
        stateless_exhausted hwithin h.2 _
      rw [outcome_stepping_of_error hwithin (by rw [stateless_bind_pure, hnext]; rfl)]
      exact ⟨rfl, hsettled⟩
    | cons e l =>
      have hnext := (consults_next (R := ∅) hserves hwithin h.2 trivial).stateless_eq
      obtain ⟨hentries, hwithin'⟩ := entries_advance hwithin h.2
      rw [outcome_stepping_of_ok (by rw [stateless_bind_pure, hnext]; rfl)]
      exact ⟨rfl, ⟨L, hwithin'⟩, hentries⟩

/-- Its answers are those of a cursor. -/
theorem outcomes_eq_cursor (h : it.Shows tree l) (calls : List CursorCall) :
    (outcomes (perform tree) calls it).1 =
      (outcomes (cursor "invalid mvsMergeIterator") calls l).1 :=
  (outcomes_eq (fun call _ _ h => outcome_perform call h) calls h).1

end MergeIterator

/-! ### The two of them -/

/-- **The eager and the lazy merge iterator are equivalent.** Over a parent and a cache that are
sorted in the direction of the traversal, they give the same answers in every sequence of calls
and panic at the same ones. Both are cursors over one list, the overlay of the cache over the
parent without the deletions. So every call returns or panics for want of an entry, and a loop
meets the entries of the list in order. -/
theorem merge_iterators_agree (ascending : Bool) (parent : List (Bytes × Bytes))
    (cache : List (Bytes × Slice)) (hparent : parent.Pairwise fun a b => Before ascending a.1 b.1)
    (hcache : cache.Pairwise fun a b => Before ascending a.1 b.1) :
    ∃ (it : CacheMergeIterator) (l : List (Bytes × Bytes)),
      newCacheMergeIterator parent (.ofList cache) (cache.map Prod.fst) ascending = .ok it ∧
      (∀ k v, (k, v) ∈ l ↔ (k, some v) ∈ cache ∨ (k, v) ∈ parent ∧ ∀ w, (k, w) ∉ cache) ∧
      (l.Pairwise fun a b => Before ascending a.1 b.1) ∧
      let eager := fun calls => (outcomes CacheMergeIterator.perform calls it).1
      let lazily := fun calls => (outcomes (MergeIterator.perform (.ofList cache)) calls
        ⟨parent, cache.map Prod.fst, ascending⟩).1
      (∀ calls, (lazily calls).map Except.toOption = (eager calls).map Except.toOption) ∧
      (∀ calls, eager calls = (outcomes (cursor "invalid cacheMergeIterator") calls l).1) ∧
      (∀ calls, lazily calls = (outcomes (cursor "invalid mvsMergeIterator") calls l).1) ∧
      eager (walk l.length) = walked l ∧ lazily (walk l.length) = walked l := by
  have hkeys : (cache.map Prod.fst).Pairwise (Before ascending) := List.pairwise_map.mpr hcache
  have hwithin : MergeIterator.Within (fun k => k ∈ cache.map Prod.fst) (fun _ => True)
      ⟨parent, cache.map Prod.fst, ascending⟩ :=
    ⟨hparent, hkeys, fun _ _ => trivial, fun _ hc => hc, fun _ _ hc => hc⟩
  obtain ⟨it, hnew, hready, hentries⟩ := CacheMergeIterator.exists_refresh
    ⟨⟨parent, cache.map Prod.fst, ascending⟩, .ofList cache, false⟩ hwithin
  have hshows : MergeIterator.Shows (.ofList cache) ⟨parent, cache.map Prod.fst, ascending⟩
      (overlay ascending (BTree.ofList cache).value parent (cache.map Prod.fst)) :=
    ⟨⟨_, hwithin⟩, rfl⟩
  have heager := CacheMergeIterator.outcomes_eq_cursor ⟨hready, hentries⟩
  have hlazy := MergeIterator.outcomes_eq_cursor hshows
  refine ⟨it, _, hnew, fun k v => ?_, pairwise_overlay hparent hkeys, fun calls => ?_, heager,
    hlazy, ?_, ?_⟩
  · rw [mem_overlay hparent hkeys, mem_keys_value_iff hcache, not_mem_keys_iff, and_comm]
  · dsimp only
    rw [hlazy calls, heager calls]
    exact toOption_outcomes_cursor _ _ calls _
  · exact (heager _).trans (outcomes_cursor_walk _ _)
  · exact (hlazy _).trans (outcomes_cursor_walk _ _)

/-- Upwards, with a deletion of the parent's last key and a key behind it. -/
theorem merge_iterators_agree_deletion :
    let parent : List (Bytes × Bytes) := [([1], [10]), ([2], [20])]
    let cache : List (Bytes × Slice) := [([2], none), ([3], some [30])]
    ∃ (it : CacheMergeIterator) (l : List (Bytes × Bytes)),
      newCacheMergeIterator parent (.ofList cache) (cache.map Prod.fst) true = .ok it ∧
      ([1], [10]) ∈ l ∧ ([2], [20]) ∉ l ∧ ([3], [30]) ∈ l ∧
      (outcomes CacheMergeIterator.perform (walk l.length) it).1 = walked l ∧
      (outcomes (MergeIterator.perform (.ofList cache)) (walk l.length)
        ⟨parent, cache.map Prod.fst, true⟩).1 = walked l := by
  intro parent cache
  obtain ⟨it, l, hnew, hmem, -, -, -, -, heager, hlazy⟩ :=
    merge_iterators_agree true parent cache (by decide) (by decide)
  refine ⟨it, l, hnew, ?_, ?_, ?_, heager, hlazy⟩
  · rw [hmem]
    simp [parent, cache]
  · rw [hmem]
    simp [parent, cache]
  · rw [hmem]
    simp [cache]

end MelodiaStore
