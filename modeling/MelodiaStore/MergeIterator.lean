import MelodiaStore.Types
import MelodiaStore.Walk

/-!
# The Merge Iterator

`mvsMergeIterator` of `multiversion/mergeiterator.go`: a parent iterator merged with a
cache iterator whose keys shadow those of the parent. The keys of the cache iterator are
known from the start, their values are not: `Value` of the cache iterator is computed when
it is called, and a `nil` there hides the key. Every method of the merge iterator first
moves both cursors to the next visible entry.

The methods are written over the two calls they make (`Callbacks`), so that the iterators
of executions and those of validation are instances.

## Main results

A cache iterator that serves fixed values `f` (`Serves`) turns the merge iterator into a
cursor over the list `MergeIterator.entries f`, the overlay of the cache's keys over the
parent's entries.

* `consults_valid`, `consults_key`, `consults_value` and `consults_next`: the methods return
  and drop the head of that list, and look up the keys `MergeIterator.lookups f` on the way.
-/

namespace MelodiaStore

open List (mem_cons_self pairwise_cons suffix_cons suffix_rfl tail_cons tail_suffix)

/-- What a merge iterator calls: `Value` of its cache iterator at a key, and
`UpdateReadSet` of its read set handler. -/
structure Callbacks (σ : Type) where
  value : Bytes → EStateM Panic σ Slice
  updateReadSet : Bytes → Bytes → EStateM Panic σ PUnit

/-- `mvsMergeIterator`: the entries of the parent iterator and the keys of the cache
iterator that are still ahead. -/
structure MergeIterator where
  parent : List (Bytes × Bytes)
  cache : List Bytes
  ascending : Bool

namespace MergeIterator

variable {σ : Type}

/-! ### The methods -/

section Methods

variable (cb : Callbacks σ)

/-- `skipCacheDeletes`; a missing limit is a `nil` one. The value of a key is looked up
before the key is compared with the limit. -/
def skipCacheDeletes (ascending : Bool) (limit : Option Bytes) :
    List Bytes → EStateM Panic σ (List Bytes)
  | [] => pure []
  | key :: cache => do
    let value ← cb.value key
    if value.isNone && limit.all (fun u => compareIn ascending key u == .lt) then
      skipCacheDeletes ascending limit cache
    else
      pure (key :: cache)

/-- `skipUntilExistsOrInvalid`; the loop runs at most `fuel` rounds. -/
def skipUntilExistsOrInvalid : ℕ → MergeIterator → EStateM Panic σ (Bool × MergeIterator)
  | 0, _ => throw .outOfFuel
  | fuel + 1, it =>
    match it.parent, it.cache with
    | [], cache => do
      let cache ← skipCacheDeletes cb it.ascending none cache
      pure (!cache.isEmpty, { it with cache := cache })
    | _ :: _, [] => pure (true, it)
    | (keyP, _) :: parent, keyC :: cache =>
      match compareIn it.ascending keyP keyC with
      | .lt => pure (true, it)
      | .eq => do
        let valueC ← cb.value keyC
        if valueC.isNone then
          skipUntilExistsOrInvalid fuel { it with parent := parent, cache := cache }
        else
          pure (true, it)
      | .gt => do
        let valueC ← cb.value keyC
        if valueC.isNone then do
          let cache ← skipCacheDeletes cb it.ascending (some keyP) (keyC :: cache)
          skipUntilExistsOrInvalid fuel { it with cache := cache }
        else
          pure (true, it)

/-- `Valid`. Every round but the last uses up a key of the cache iterator. -/
def valid (it : MergeIterator) : EStateM Panic σ (Bool × MergeIterator) :=
  skipUntilExistsOrInvalid cb (it.cache.length + 1) it

/-- `assertValid`, which asks `Error` and through it `Valid`. -/
def assertValid (it : MergeIterator) : EStateM Panic σ MergeIterator := do
  let (valid, it) ← valid cb it
  if valid then pure it else throw (.error "invalid mvsMergeIterator")

/-- Where the current entry is. -/
inductive Side
  | parent
  | cache
  | both

/-- The tests that `Next`, `Key` and `Value` make once the iterator is valid. -/
def side (it : MergeIterator) : Side :=
  match it.parent, it.cache with
  | [], _ => .cache
  | _ :: _, [] => .parent
  | (keyP, _) :: _, keyC :: _ =>
    match compareIn it.ascending keyP keyC with
    | .lt => .parent
    | .eq => .both
    | .gt => .cache

/-- Move the cursors past the current entry. -/
def advance (it : MergeIterator) : MergeIterator :=
  match it.side with
  | .parent => { it with parent := it.parent.tail }
  | .cache => { it with cache := it.cache.tail }
  | .both => { it with parent := it.parent.tail, cache := it.cache.tail }

/-- The entry under the cursor of the parent iterator. -/
def parentEntry (it : MergeIterator) : Except Panic (Bytes × Bytes) :=
  it.parent.head?.elim (.error (.text "iterator is invalid")) .ok

/-- The key under the cursor of the cache iterator. -/
def cacheKey (it : MergeIterator) : Except Panic Bytes :=
  it.cache.head?.elim (.error (.text "iterator is invalid")) .ok

/-- `Next`. -/
def next (it : MergeIterator) : EStateM Panic σ MergeIterator := do
  let (_, it) ← valid cb it
  let it ← assertValid cb it
  pure it.advance

/-- `Key`. -/
def key (it : MergeIterator) : EStateM Panic σ (Bytes × MergeIterator) := do
  let (_, it) ← valid cb it
  let it ← assertValid cb it
  match it.side with
  | .cache => pure (← ofExcept it.cacheKey, it)
  | .parent | .both => pure ((← ofExcept it.parentEntry).1, it)

/-- `Value`: a value of the parent is added to the read set. -/
def value (it : MergeIterator) : EStateM Panic σ (Slice × MergeIterator) := do
  let (_, it) ← valid cb it
  let it ← assertValid cb it
  match it.side with
  | .parent => do
    let (keyP, value) ← ofExcept it.parentEntry
    cb.updateReadSet keyP value
    pure (some value, it)
  | .cache | .both => do
    let keyC ← ofExcept it.cacheKey
    pure (← cb.value keyC, it)

end Methods

/-! ### Where the methods leave an iterator -/

section Frames

/-- The two calls keep what holds of the state. -/
structure Keeps (cb : Callbacks σ) (P : σ → Prop) : Prop where
  value : ∀ k, Ensures P (cb.value k) fun _ => P
  updateReadSet : ∀ k v, Ensures P (cb.updateReadSet k v) fun _ => P

/-- The iterator has moved on from another one. -/
structure MovedFrom (it it' : MergeIterator) : Prop where
  parent : it'.parent <:+ it.parent
  cache : it'.cache <:+ it.cache
  ascending : it'.ascending = it.ascending

theorem MovedFrom.refl (it : MergeIterator) : it.MovedFrom it :=
  ⟨suffix_rfl, suffix_rfl, rfl⟩

theorem MovedFrom.trans {it it' it'' : MergeIterator} (h : it.MovedFrom it')
    (h' : it'.MovedFrom it'') : it.MovedFrom it'' :=
  ⟨h'.parent.trans h.parent, h'.cache.trans h.cache, h'.ascending.trans h.ascending⟩

theorem movedFrom_advance (it : MergeIterator) : it.MovedFrom it.advance := by
  unfold advance
  split
  · exact ⟨tail_suffix _, suffix_rfl, rfl⟩
  · exact ⟨suffix_rfl, tail_suffix _, rfl⟩
  · exact ⟨tail_suffix _, tail_suffix _, rfl⟩

variable {cb : Callbacks σ} {P : σ → Prop}

section

variable (hcb : Keeps cb P)
include hcb

theorem ensures_skipCacheDeletes (ascending : Bool) (limit : Option Bytes) (cache : List Bytes) :
    Ensures P (skipCacheDeletes cb ascending limit cache)
      fun cache' s => cache' <:+ cache ∧ P s := by
  induction cache with
  | nil => exact .pure fun s hs => ⟨suffix_rfl, hs⟩
  | cons key cache ih =>
    refine (hcb.value key).bind fun value => ?_
    split
    · exact ih.imp fun cache' s h => ⟨h.1.trans (suffix_cons key cache), h.2⟩
    · exact .pure fun s hs => ⟨suffix_rfl, hs⟩

theorem ensures_skipUntilExistsOrInvalid (fuel : ℕ) (it : MergeIterator) :
    Ensures P (skipUntilExistsOrInvalid cb fuel it) fun r s => it.MovedFrom r.2 ∧ P s := by
  induction fuel generalizing it with
  | zero => exact .throw _
  | succ fuel ih =>
    obtain ⟨parent, cache, ascending⟩ := it
    rw [skipUntilExistsOrInvalid]
    rcases parent with _ | ⟨e, parent⟩
    · exact (ensures_skipCacheDeletes hcb ascending none cache).bind fun cache' =>
        .pure fun s h => ⟨⟨suffix_rfl, h.1, rfl⟩, h.2⟩
    rcases cache with _ | ⟨keyC, cache⟩
    · exact .pure fun s hs => ⟨.refl _, hs⟩
    dsimp only
    split
    · exact .pure fun s hs => ⟨.refl _, hs⟩
    · refine (hcb.value keyC).bind fun valueC => ?_
      split
      · refine (ih _).imp fun r s h => ⟨.trans ?_ h.1, h.2⟩
        exact ⟨suffix_cons _ _, suffix_cons _ _, rfl⟩
      · exact .pure fun s hs => ⟨.refl _, hs⟩
    · refine (hcb.value keyC).bind fun valueC => ?_
      split
      · refine (ensures_skipCacheDeletes hcb ascending _ _).bind fun cache' s r s' hs hrun => ?_
        obtain ⟨hmoved, hs'⟩ := ih _ hs.2 hrun
        refine ⟨.trans ?_ hmoved, hs'⟩
        exact ⟨suffix_rfl, hs.1, rfl⟩
      · exact .pure fun s hs => ⟨.refl _, hs⟩

/-- `Valid` only moves ahead. -/
theorem ensures_valid (it : MergeIterator) :
    Ensures P (valid cb it) fun r s => it.MovedFrom r.2 ∧ P s :=
  ensures_skipUntilExistsOrInvalid hcb _ it

theorem ensures_assertValid (it : MergeIterator) :
    Ensures P (assertValid cb it) fun it' s => it.MovedFrom it' ∧ P s := by
  refine (ensures_valid hcb it).bind fun r => ?_
  obtain ⟨valid, it'⟩ := r
  cases valid with
  | true => exact .pure fun s h => h
  | false => exact .throw _

/-- What `Next`, `Key` and `Value` begin with. -/
theorem ensures_valid_assertValid (it : MergeIterator) {α : Type}
    {k : MergeIterator → EStateM Panic σ α} {Q : α → σ → Prop}
    (hk : ∀ it', it.MovedFrom it' → Ensures P (k it') Q) :
    Ensures P (do
      let (_, it) ← valid cb it
      let it ← assertValid cb it
      k it) Q := by
  refine (ensures_valid hcb it).bind fun r s a s' hs hrun => ?_
  obtain ⟨it', s₁, hrun₁, hrun₂⟩ := run_bind_eq_ok.mp hrun
  obtain ⟨hmoved, hs₁⟩ := ensures_assertValid hcb r.2 hs.2 hrun₁
  exact hk it' (hs.1.trans hmoved) hs₁ hrun₂

/-- `Next` only moves ahead. -/
theorem ensures_next (it : MergeIterator) :
    Ensures P (next cb it) fun it' s => it.MovedFrom it' ∧ P s :=
  ensures_valid_assertValid hcb it fun it' h =>
    .pure fun _ hs => ⟨h.trans (movedFrom_advance it'), hs⟩

/-- `Key` only moves ahead. -/
theorem ensures_key (it : MergeIterator) :
    Ensures P (key cb it) fun r s => it.MovedFrom r.2 ∧ P s := by
  refine ensures_valid_assertValid hcb it fun it' h => ?_
  cases it'.side with
  | cache | parent | both => exact .ofExcept_bind fun _ _ => .pure fun _ hs => ⟨h, hs⟩

/-- **What `Value` has shown**: the value of the parent's entry, once it was added to the
read set, or else the value of the key of the layer. -/
theorem ensures_value {Q : MergeIterator → Slice → σ → Prop}
    (hparent : ∀ it e, it.side = .parent → it.parentEntry = .ok e →
      Ensures P (cb.updateReadSet e.1 e.2) fun _ => Q it (some e.2))
    (hcache : ∀ it k, it.side ≠ .parent → it.cacheKey = .ok k → Ensures P (cb.value k) (Q it))
    (it : MergeIterator) : Ensures P (value cb it) fun r s => it.MovedFrom r.2 ∧ Q r.2 r.1 s := by
  refine ensures_valid_assertValid hcb it fun it' h => ?_
  cases hside : it'.side with
  | parent =>
    exact .ofExcept_bind fun e he =>
      (hparent it' e hside he).bind fun _ => .pure fun _ hQ => ⟨h, hQ⟩
  | cache | both =>
    have hne : it'.side ≠ .parent := by rw [hside]; nofun
    exact .ofExcept_bind fun k hk =>
      (hcache it' k hne hk).bind fun _ => .pure fun _ hQ => ⟨h, hQ⟩

end

end Frames

/-! ### The list a merge iterator goes through -/

/-- The entries ahead, when the cache iterator has the values `f`. -/
def entries (f : Bytes → Slice) (it : MergeIterator) : List (Bytes × Bytes) :=
  overlay it.ascending f it.parent it.cache

/-- The iterator after it has moved to its next entry. -/
def settled (f : Bytes → Slice) (it : MergeIterator) : MergeIterator :=
  { it with
    parent := (settle it.ascending f it.parent it.cache).1
    cache := (settle it.ascending f it.parent it.cache).2 }

/-- The keys of the cache that are looked up on the way. -/
def lookups (f : Bytes → Slice) (it : MergeIterator) : Set Bytes :=
  consulted it.ascending f it.parent it.cache

/-- The cursors stand in a layer `L` of keys over the entries `B`. -/
abbrev Within (L : Bytes → Prop) (B : Bytes × Bytes → Prop) (it : MergeIterator) : Prop :=
  Layered it.ascending L B it.parent it.cache

variable {f : Bytes → Slice} {L : Bytes → Prop} {B : Bytes × Bytes → Prop} {it : MergeIterator}

/-- Skipping stays within the lists. -/
theorem Within.settled (h : it.Within L B) : (it.settled f).Within L B := Layered.settle h

/-- Skipping does not show. -/
theorem entries_settled (h : it.Within L B) : (it.settled f).entries f = it.entries f :=
  overlay_settle it.cache h.base_sorted

/-- What an iterator has under its cursors once it has settled: the entry is the parent's,
whose key is then not in the layer, or has the value of the cache. Past the entry, the lists hold
what comes after it. -/
theorem settled_front {e : Bytes × Bytes} {es : List (Bytes × Bytes)} (h : it.Within L B)
    (hs : Settled it.ascending f it.parent it.cache) (hes : it.entries f = e :: es) :
    (it.advance.entries f = es ∧ it.advance.Within L B) ∧
      ((it.side = .parent ∧ it.parentEntry = .ok e ∧ B e ∧ ¬ L e.1) ∨
        (it.side = .cache ∨ it.side = .both ∧ ∃ e', it.parentEntry = .ok e' ∧ e'.1 = e.1) ∧
          it.cacheKey = .ok e.1 ∧ L e.1 ∧ f e.1 = some e.2 ∧ e.1 ∈ it.lookups f) ∧
      (∀ x, x ∈ it.advance.cache ↔ x ∈ it.cache ∧ Before it.ascending e.1 x) ∧
        ∀ b, b ∈ it.advance.parent ↔ b ∈ it.parent ∧ Before it.ascending e.1 b.1 := by
  obtain ⟨parent, cache, ascending⟩ := it
  simp only [entries, Within] at hes h hs ⊢
  cases hs with
  | done => cases hes
  | layer hv =>
    rw [overlay_nil_cons, hv] at hes
    obtain ⟨rfl, rfl⟩ := List.cons.inj hes
    exact ⟨⟨rfl, h.tail_keys fun e he => absurd he List.not_mem_nil⟩,
      .inr ⟨.inl rfl, rfl, h.mem_keys _ mem_cons_self, hv, Set.mem_insert _ _⟩,
      fun x => mem_iff_mem_cons_and_before h.keys_sorted, fun b => by simp [advance, side]⟩
  | base =>
    obtain ⟨rfl, rfl⟩ := List.cons.inj hes
    exact ⟨⟨rfl, h.tail_base⟩,
      .inl ⟨rfl, rfl, h.mem_base _ mem_cons_self,
        h.not_layer fun c hc => absurd hc List.not_mem_nil⟩,
      fun x => by simp [advance, side], fun b => mem_iff_mem_cons_and_before' h.base_sorted⟩
  | before hc =>
    rw [overlay_cons_cons_lt hc] at hes
    obtain ⟨rfl, rfl⟩ := List.cons.inj hes
    have hside : compareIn ascending _ _ = .lt := compareIn_eq_lt.mpr hc
    have hafter := List.forall_mem_cons.mpr
      ⟨hc, fun c' hc' => hc.trans ((pairwise_cons.mp h.keys_sorted).1 c' hc')⟩
    simp only [advance, side, hside, tail_cons, true_and]
    exact ⟨h.tail_base, .inl ⟨rfl, h.mem_base _ mem_cons_self, h.not_layer hafter⟩,
      fun x => (and_iff_left_of_imp (hafter x)).symm,
      fun b => mem_iff_mem_cons_and_before' h.base_sorted⟩
  | shadowed hc hv =>
    rw [overlay_cons_cons_eq hc fun e' he' => hc ▸ (pairwise_cons.mp h.base_sorted).1 e' he',
      hv] at hes
    obtain ⟨rfl, rfl⟩ := List.cons.inj hes
    have hside : compareIn ascending _ _ = .eq := compareIn_eq_eq.mpr hc
    simp only [advance, side, hside, tail_cons, true_and]
    refine ⟨h.tail_both hc,
      .inr ⟨.inr ⟨_, rfl, hc⟩, rfl, h.mem_keys _ mem_cons_self, hv,
        by simp [lookups, consulted, hside]⟩,
      fun x => mem_iff_mem_cons_and_before h.keys_sorted, fun b => ?_⟩
    rw [← hc]
    exact mem_iff_mem_cons_and_before' h.base_sorted
  | after hc hv =>
    rw [overlay_cons_cons_gt hc, hv] at hes
    obtain ⟨rfl, rfl⟩ := List.cons.inj hes
    have hside : compareIn ascending _ _ = .gt := compareIn_eq_gt.mpr hc
    simp only [advance, side, hside, tail_cons, true_and]
    have hafter := List.forall_mem_cons (p := fun b => Before ascending _ b.1).mpr
      ⟨hc, fun b hb => hc.trans ((pairwise_cons.mp h.base_sorted).1 b hb)⟩
    exact ⟨h.tail_keys (h.ne_of_before hc),
      .inr ⟨.inl trivial, rfl, h.mem_keys _ mem_cons_self, hv,
        by simp [lookups, consulted, hside]⟩,
      fun x => mem_iff_mem_cons_and_before h.keys_sorted,
      fun b => (and_iff_left_of_imp (hafter b)).symm⟩

/-! ### What the methods do -/

/-- The callbacks serve the values `f` on the layer `L` and accept the entries `B` outside
it. A lookup may panic for a key that is `bad`. -/
structure Serves (cb : Callbacks σ) (I : Set Bytes → σ → Prop) (bad : Bytes → Prop)
    (f : Bytes → Slice) (L : Bytes → Prop) (B : Bytes × Bytes → Prop) : Prop where
  value : ∀ {R s k}, L k → I R s → Consults I bad (cb.value k) s R {k} (f k)
  update : ∀ {R s} {e : Bytes × Bytes}, B e → ¬ L e.1 → I R s →
    Consults I bad (cb.updateReadSet e.1 e.2) s R ∅ ⟨⟩

section Serves

variable {cb : Callbacks σ} {I : Set Bytes → σ → Prop} {bad : Bytes → Prop} {R : Set Bytes} {s : σ}

/-- What the loop over deleted keys consults. -/
theorem consults_skipCacheDeletes (hcb : Serves cb I bad f L B) {ascending : Bool}
    {limit : Option Bytes} {cache : List Bytes} (hcache : ∀ c ∈ cache, L c) (hI : I R s) :
    Consults I bad (skipCacheDeletes cb ascending limit cache) s R
      (skipped ascending f limit cache) (cache.dropWhile (hides ascending f limit)) := by
  induction cache generalizing R s with
  | nil => exact .pure hI
  | cons c cache ih =>
    rw [skipped, Set.insert_eq]
    refine (hcb.value (hcache c mem_cons_self) hI).bind fun s₁ hI₁ => ?_
    by_cases hc : hides ascending f limit c = true
    · rw [if_pos hc, List.dropWhile_cons_of_pos hc]
      have hround : ((f c).isNone && limit.all fun u => compareIn ascending c u == .lt) = true :=
        hc
      simp only [hround, if_true]
      exact ih (fun c' hc' => hcache c' (List.mem_cons_of_mem c hc')) hI₁
    · rw [if_neg hc, List.dropWhile_cons_of_neg hc]
      have hround :
          ¬ ((f c).isNone && limit.all fun u => compareIn ascending c u == .lt) = true := hc
      simp only [hround]
      exact .pure hI₁

/-- The loop returns an iterator that has settled on an entry as it is. -/
theorem consults_settled (hs : Settled it.ascending f it.parent it.cache)
    (hne : it.parent ≠ [] ∨ it.cache ≠ []) (hI : I R s) :
    Consults I bad (pure (true, it) : EStateM Panic σ (Bool × MergeIterator)) s R ∅
      (!(it.entries f).isEmpty, it.settled f) := by
  refine (Consults.pure hI).congr rfl ?_
  have hempty : (it.entries f).isEmpty = false := by
    rw [entries, hs.isEmpty_overlay]
    rcases hne with hne | hne <;> simp [hne]
  rw [hempty, settled, hs.settle_eq]
  rfl

/-- **The loop settles the iterator**, and reports whether there is an entry ahead. -/
theorem consults_skipUntilExistsOrInvalid (hcb : Serves cb I bad f L B) {fuel : ℕ}
    (hfuel : it.cache.length < fuel) (h : it.Within L B) (hI : I R s) :
    Consults I bad (skipUntilExistsOrInvalid cb fuel it) s R (it.lookups f)
      (!(it.entries f).isEmpty, it.settled f) := by
  induction fuel generalizing it R s with
  | zero => omega
  | succ fuel ih =>
    obtain ⟨parent, cache, ascending⟩ := it
    rw [skipUntilExistsOrInvalid]
    rcases parent with _ | ⟨e, parent⟩
    · obtain ⟨hsettle, hlook⟩ : settle ascending f [] cache = ([], _) ∧
        consulted ascending f [] cache = _ := settle_nil cache
      have hs : Settled ascending f _ _ := settled_settle [] cache
      rw [entries, ← overlay_settle cache h.base_sorted, hs.isEmpty_overlay, lookups, hlook,
        ← Set.union_empty (skipped ascending f none cache)]
      simp only [settled, hsettle, List.isEmpty_nil, Bool.true_and]
      exact (consults_skipCacheDeletes hcb h.mem_keys hI).bind fun s₁ hI₁ => .pure hI₁
    rcases cache with _ | ⟨c, cache⟩
    · exact consults_settled .base (.inl (by simp)) hI
    have hlt : cache.length < fuel := by simpa using hfuel
    have hvalue := hcb.value (h.mem_keys c mem_cons_self) hI
    cases hcmp : compareIn ascending e.1 c with
    | lt =>
      simp only [hcmp, lookups, consulted]
      exact consults_settled (.before (compareIn_eq_lt.mp hcmp)) (.inl (by simp)) hI
    | eq =>
      have hc := compareIn_eq_eq.mp hcmp
      simp only [hcmp, lookups, consulted]
      rw [Set.insert_eq]
      refine hvalue.bind fun s₁ hI₁ => ?_
      cases hv : f c with
      | some v => exact consults_settled (.shadowed hc hv) (.inl (by simp)) hI₁
      | none =>
        refine (ih hlt (h.tail_both hc) hI₁).congr rfl ?_
        have hbase := (pairwise_cons.mp h.base_sorted).1
        rw [entries, entries, overlay_cons_cons_eq hc fun e' he' => hc ▸ hbase e' he', hv]
        simp [settled, settle, hcmp, hv]
    | gt =>
      have hc := compareIn_eq_gt.mp hcmp
      simp only [hcmp, lookups]
      cases hv : f c with
      | some v =>
        rw [hv] at hvalue
        simp only [consulted, hcmp, hv, Option.isSome_some, if_true, Set.insert_eq]
        exact hvalue.bind fun s₁ hI₁ => consults_settled (.after hc hv) (.inl (by simp)) hI₁
      | none =>
        rw [hv] at hvalue
        have hhide : hides ascending f (some e.1) c = true := hides_some.mpr ⟨hv, hc⟩
        have hshort :
            ((c :: cache).dropWhile (hides ascending f (some e.1))).length < fuel := by
          rw [List.dropWhile_cons_of_pos hhide]
          exact lt_of_le_of_lt (List.dropWhile_sublist _).length_le hlt
        have hmem : {c} ⊆ skipped ascending f (some e.1) (c :: cache) :=
          Set.singleton_subset_iff.mpr (Set.mem_insert c _)
        rw [consulted_skip hhide, ← Set.union_eq_right.mpr hmem, Set.union_assoc]
        refine hvalue.bind fun s₁ hI₁ =>
          (consults_skipCacheDeletes hcb h.mem_keys hI₁).bind fun s₂ hI₂ =>
            (ih hshort h.skip hI₂).congr rfl ?_
        rw [entries, entries, ← overlay_settle _ h.base_sorted,
          ← overlay_settle (c :: cache) h.base_sorted, settle_skip]
        simp only [settled, settle_skip]

/-- **`Valid`** says whether there is an entry ahead. -/
theorem consults_valid (hcb : Serves cb I bad f L B) (h : it.Within L B) (hI : I R s) :
    Consults I bad (valid cb it) s R (it.lookups f) (!(it.entries f).isEmpty, it.settled f) :=
  consults_skipUntilExistsOrInvalid hcb (Nat.lt_succ_self _) h hI

theorem settled_settled : (it.settled f).settled f = it.settled f := by
  have hs : settle it.ascending f (it.settled f).parent (it.settled f).cache = _ :=
    (settled_settle it.parent it.cache).settle_eq
  rw [settled, show (it.settled f).ascending = it.ascending from rfl, hs]
  rfl

/-- `Valid` asked once more looks up nothing new. -/
theorem lookups_settled : (it.settled f).lookups f ⊆ it.lookups f :=
  consulted_settle it.parent it.cache

/-! ### The cursor -/

section Ahead

variable {e : Bytes × Bytes} {es : List (Bytes × Bytes)}

section

variable (hcb : Serves cb I bad f L B) (h : it.Within L B)
include hcb h

/-- What `Next`, `Key` and `Value` begin with, `Valid` and then `assertValid`, passes when
there is an entry ahead. -/
theorem consults_valid_assertValid (hes : it.entries f = e :: es) (hI : I R s) {α : Type}
    {k : MergeIterator → EStateM Panic σ α} {T : Set Bytes} {a : α}
    (hk : ∀ s', I (R ∪ it.lookups f) s' →
      Consults I bad (k (it.settled f)) s' (R ∪ it.lookups f) T a) :
    Consults I bad (do
        let (_, it) ← valid cb it
        let it ← assertValid cb it
        k it) s R (it.lookups f ∪ T) a := by
  have hagain : it.lookups f ∪ (it.settled f).lookups f = it.lookups f :=
    Set.union_eq_left.mpr lookups_settled
  rw [← hagain, Set.union_assoc]
  refine (consults_valid hcb h hI).bind fun s₁ hI₁ => ?_
  refine Consults.bind (a := it.settled f) ?_ fun s₂ hI₂ => ?_
  · rw [assertValid, ← Set.union_empty ((it.settled f).lookups f)]
    refine (consults_valid hcb (Within.settled h) hI₁).bind fun s₂ hI₂ => ?_
    rw [entries_settled h, settled_settled, hes]
    exact .pure hI₂
  · rw [Set.union_assoc, hagain] at hI₂ ⊢
    exact hk s₂ hI₂

/-- Conversely, they pass only when there is an entry ahead. -/
theorem exists_ahead_of_run (hI : I R s) {α : Type} {k : MergeIterator → EStateM Panic σ α} {a : α}
    {s' : σ} (hrun : (do
      let (_, it) ← valid cb it
      let it ← assertValid cb it
      k it).run s = .ok a s') : ∃ e es, it.entries f = e :: es := by
  obtain ⟨r, s₁, hvalid, hrun⟩ := run_bind_eq_ok.mp hrun
  obtain ⟨rfl, hI₁⟩ := (consults_valid hcb h hI).of_run hvalid
  obtain ⟨it', s₂, hassert, -⟩ := run_bind_eq_ok.mp hrun
  obtain ⟨⟨valid, it''⟩, s₃, hagain, hassert⟩ := run_bind_eq_ok.mp hassert
  obtain ⟨hr, -⟩ := (consults_valid hcb (Within.settled h) hI₁).of_run hagain
  rw [entries_settled h] at hr
  cases hes : it.entries f with
  | cons e es => exact ⟨e, es, rfl⟩
  | nil =>
    obtain ⟨rfl, -⟩ := Prod.mk.inj hr
    rw [hes] at hassert
    cases hassert

/-- **`Next`** drops the entry. -/
theorem consults_next (hes : it.entries f = e :: es) (hI : I R s) :
    Consults I bad (next cb it) s R (it.lookups f) (it.settled f).advance :=
  (consults_valid_assertValid hcb h hes hI (k := fun it => pure it.advance)
    fun _ hI' => .pure hI').congr (Set.union_empty _) rfl

end

/-- One entry less. -/
theorem entries_advance (h : it.Within L B) (hes : it.entries f = e :: es) :
    (it.settled f).advance.entries f = es ∧ (it.settled f).advance.Within L B :=
  (settled_front (Within.settled h) (settled_settle _ _) ((entries_settled h).trans hes)).1

/-- **`Key`** is the key of the entry. -/
theorem consults_key (hcb : Serves cb I bad f L B) (h : it.Within L B)
    (hes : it.entries f = e :: es) (hI : I R s) :
    Consults I bad (key cb it) s R (it.lookups f) (e.1, it.settled f) := by
  refine (consults_valid_assertValid hcb h hes hI (T := ∅) fun s' hI' => ?_).congr
    (Set.union_empty _) rfl
  obtain ⟨-, hfront, -⟩ :=
    settled_front (Within.settled h) (settled_settle _ _) ((entries_settled h).trans hes)
  rcases hfront with ⟨hside, hentry, -⟩ | ⟨hside | ⟨hside, e', hentry, he'⟩, hkey, -⟩
  · simp only [hside, hentry]
    exact .pure hI'
  · simp only [hside, hkey]
    exact .pure hI'
  · simp only [hside, hentry, ← he']
    exact .pure hI'

/-- **`Value`** is the value of the entry. -/
theorem consults_value (hcb : Serves cb I bad f L B) (h : it.Within L B)
    (hes : it.entries f = e :: es) (hI : I R s) :
    Consults I bad (value cb it) s R (it.lookups f) (some e.2, it.settled f) := by
  obtain ⟨-, hfront, -⟩ :=
    settled_front (Within.settled h) (settled_settle _ _) ((entries_settled h).trans hes)
  rcases hfront with ⟨hside, hentry, hB, hL⟩ | ⟨hside, hkey, hL, hv, hmem⟩
  · refine (consults_valid_assertValid hcb h hes hI fun s' hI' => ?_).congr
      (Set.union_empty _) rfl
    simp only [hside, hentry]
    exact (hcb.update hB hL hI').bind_right fun _ => .pure
  · -- the value of a key of the cache has been looked up before
    have hagain : it.lookups f ∪ {e.1} = it.lookups f :=
      Set.union_eq_left.mpr (Set.singleton_subset_iff.mpr (lookups_settled hmem))
    refine (consults_valid_assertValid hcb h hes hI fun s' hI' => ?_).congr hagain rfl
    rw [← hv]
    rcases hside with hside | ⟨hside, -⟩
    · simp only [hside, hkey]
      exact (hcb.value hL hI').bind_left fun _ => .pure
    · simp only [hside, hkey]
      exact (hcb.value hL hI').bind_left fun _ => .pure

/-! An iterator that is on its entry already. -/

section

variable (hcb : Serves cb I bad f L B) (h : it.Within L B) (hes : it.entries f = e :: es)
  (hI : I R s)
include hcb h hes hI

theorem consults_next_settled :
    Consults I bad ((it.settled f).next cb) s R ((it.settled f).lookups f)
      (it.settled f).advance := by
  have hnext := consults_next hcb (Within.settled h) ((entries_settled h).trans hes) hI
  rwa [settled_settled] at hnext

theorem consults_key_settled :
    Consults I bad ((it.settled f).key cb) s R ((it.settled f).lookups f) (e.1, it.settled f) := by
  have hkey := consults_key hcb (Within.settled h) ((entries_settled h).trans hes) hI
  rwa [settled_settled] at hkey

theorem consults_value_settled :
    Consults I bad ((it.settled f).value cb) s R ((it.settled f).lookups f)
      (some e.2, it.settled f) := by
  have hvalue := consults_value hcb (Within.settled h) ((entries_settled h).trans hes) hI
  rwa [settled_settled] at hvalue

end

end Ahead

end Serves

/-! ### Walks -/

section Walk

variable {e : Bytes × Bytes} {es : List (Bytes × Bytes)}

@[simp] theorem ascending_advance : (it.settled f).advance.ascending = it.ascending := by
  unfold advance
  split <;> rfl

/-- After one step of a walk the lists hold what comes after the entry. -/
theorem mem_advance (h : it.Within L B) (hes : it.entries f = e :: es) :
    (∀ x, x ∈ (it.settled f).advance.cache ↔ x ∈ it.cache ∧ Before it.ascending e.1 x) ∧
      ∀ b, b ∈ (it.settled f).advance.parent ↔ b ∈ it.parent ∧ Before it.ascending e.1 b.1 := by
  obtain ⟨-, -, hkeys, hbase⟩ :=
    settled_front (Within.settled h) (settled_settle _ _) ((entries_settled h).trans hes)
  obtain ⟨hkeep, hkeep'⟩ := mem_settle_or_before (f := f) h.base_sorted h.keys_sorted
  obtain ⟨hsuffix, hsuffix'⟩ := settle_suffix (f := f) it.parent it.cache
  have hmem : e ∈ overlay it.ascending f it.parent it.cache := by
    rw [show overlay it.ascending f it.parent it.cache = e :: es from hes]
    exact mem_cons_self
  refine ⟨fun x => (hkeys x).trans ⟨fun hx => ⟨hsuffix'.mem hx.1, hx.2⟩, fun hx => ⟨?_, hx.2⟩⟩,
    fun b => (hbase b).trans ⟨fun hb => ⟨hsuffix.mem hb.1, hb.2⟩, fun hb => ⟨?_, hb.2⟩⟩⟩
  · exact (hkeep x hx.1).resolve_right fun hall => (hall e hmem).asymm hx.2
  · exact (hkeep' b hb.1).resolve_right fun hall => (hall e hmem).asymm hb.2

/-- The keys of the cache that are looked up in a walk of `n` steps, the last of which ends
with the question whether the iterator is valid. -/
def visits (f : Bytes → Slice) : ℕ → MergeIterator → Set Bytes
  | 0, it => it.lookups f
  | n + 1, it => it.lookups f ∪ visits f n (it.settled f).advance

/-- **What a walk looks up**: the keys up to the entry it ends on, and the key right behind
a hidden one before it. -/
theorem lookedUp_visits (h : it.Within L B) {n : ℕ} (hn : n ≤ (it.entries f).length) :
    LookedUp it.ascending f it.parent it.cache ((it.entries f).drop n) (it.visits f n) := by
  induction n generalizing it with
  | zero => exact lookedUp_consulted h.base_sorted h.keys_sorted
  | succ n ih =>
    obtain ⟨e, es, hes⟩ : ∃ e es, it.entries f = e :: es := by
      cases hes : it.entries f with
      | nil => simp [hes] at hn
      | cons e es => exact ⟨e, es, rfl⟩
    obtain ⟨hentries, hwithin⟩ := entries_advance h hes
    obtain ⟨hkeys, hbase⟩ := mem_advance h hes
    have hfirst : LookedUp it.ascending f it.parent it.cache (it.entries f) (it.lookups f) :=
      lookedUp_consulted h.base_sorted h.keys_sorted
    have hsorted : (it.entries f).Pairwise fun a b => Before it.ascending a.1 b.1 :=
      pairwise_overlay h.base_sorted h.keys_sorted
    rw [hes] at hfirst hsorted
    have ih := ih hwithin (by rw [hentries]; simpa [hes] using hn)
    rw [hentries, ascending_advance] at ih
    rw [hes, List.drop_succ_cons]
    intro k
    rw [visits, Set.mem_union, hfirst k, ih k]
    constructor
    · rintro (⟨hk, hcond⟩ | ⟨hk, hcond⟩)
      · refine ⟨hk, fun e' he' => ?_⟩
        have hee' : Before it.ascending e.1 e'.1 := (pairwise_cons.mp hsorted).1 e'
          (List.mem_of_mem_drop (List.mem_of_head? he'))
        rcases hcond e rfl with hek | ⟨c, hc, hhidden, hout, hce, hrest⟩
        · exact .inl fun he'k => hek (hee'.trans he'k)
        · exact .inr ⟨c, hc, hhidden, hout, hce.trans hee', hrest⟩
      · refine ⟨((hkeys k).mp hk).1, fun e' he' => (hcond e' he').imp_right ?_⟩
        rintro ⟨c, hc, hhidden, hout, hce', hck, hnext⟩
        obtain ⟨hc, hec⟩ := (hkeys c).mp hc
        refine ⟨c, hc, hhidden, fun b hb hbc => ?_, hce', hck, fun c' hc' hcc' => ?_⟩
        · exact hout b ((hbase b).mpr ⟨hb, hbc ▸ hec⟩) hbc
        · exact hnext c' ((hkeys c').mpr ⟨hc', hec.trans hcc'⟩) hcc'
    · rintro ⟨hk, hcond⟩
      by_cases hlook : ¬ Before it.ascending e.1 k ∨
          Behind it.ascending f it.parent it.cache e.1 k
      · refine .inl ⟨hk, fun e' he' => ?_⟩
        obtain rfl : e = e' := Option.some.inj he'
        exact hlook
      · rw [not_or, not_not] at hlook
        refine .inr ⟨(hkeys k).mpr ⟨hk, hlook.1⟩, fun e' he' => (hcond e' he').imp_right ?_⟩
        rintro ⟨c, hc, hhidden, hout, hce', hck, hnext⟩
        -- the hidden key is past the entry, or else `k` was looked up before
        have hec : Before it.ascending e.1 c := by
          rcases before_or_eq_or_before it.ascending e.1 c with hec | rfl | hce
          · exact hec
          · have hmem : e ∈ it.entries f := by rw [hes]; exact mem_cons_self
            rcases (mem_overlay h.base_sorted h.keys_sorted).mp hmem with ⟨-, hv⟩ | ⟨hout, -⟩
            · rw [hhidden] at hv
              cases hv
            · exact absurd hc hout
          · exact absurd ⟨c, hc, hhidden, hout, hce, hck, hnext⟩ hlook.2
        exact ⟨c, (hkeys c).mpr ⟨hc, hec⟩, hhidden, fun b hb => hout b ((hbase b).mp hb).1, hce',
          hck, fun c' hc' => hnext c' ((hkeys c').mp hc').1⟩

end Walk

end MergeIterator

end MelodiaStore
