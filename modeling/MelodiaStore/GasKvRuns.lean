import MelodiaStore.GasKv
import MelodiaStore.PrefixStore

/-!
# Runs of Metered Stores

Runs of the calls of a `gaskv.Store`, up to the first panic for gas. The cost of a run is the sum of
the costs of its calls, in the states that the parent alone goes through.

A sorted map whose iterators show what it held when they were created is one of the parents
(`sortedParent`). If what it holds is within the limits of validity, so is what it answers with, and
only the keys and values of the calls have to be.

## Main results

* `gasKv_exact`: a metered store changes nothing but gas.
-/

namespace MelodiaStore

/-! ### Runs -/

theorem not_isGasPanic_mapError {ε α : Type} (r : Except ε α) :
    ¬ IsGasPanic (r.mapError GasKvPanic.parent) := by
  cases r with
  | ok a => exact id
  | error e => exact id

section Runs

variable {σ ι ε : Type} {P : ParentStore σ ι ε} {cfg : GasConfig}

/-- **A run of a metered store is the run of its parent**, at its cost: some call panics for gas if
the cost does not fit into what the meter has left, and only then. -/
theorem meteredRun (hcfg : cfg.Small) (meter : GasMeterKind) {calls : List (KVCall ι)} {p : σ}
    (h : P.RunFits calls p) (g : GasCounters) :
    ((∃ r ∈ (outcomes (GasKv.perform P cfg meter) calls ⟨g, p⟩).1, IsGasPanic r) ∧
      meter.Past g (P.runCost cfg calls p)) ∨
    ∃ g', outcomes (GasKv.perform P cfg meter) calls ⟨g, p⟩ =
        ((outcomes P.perform calls p).1.map (Except.mapError .parent),
          ⟨g', (outcomes P.perform calls p).2⟩) ∧
      g.Charged g' (P.runCost cfg calls p) ∧ meter.Within g (P.runCost cfg calls p) := by
  induction calls generalizing p g with
  | nil => exact .inr ⟨g, rfl, .refl g, meter.within_zero g⟩
  | cons call calls ih =>
    obtain ⟨hcall, hrest⟩ := h
    rw [ParentStore.runCost]
    rcases metered_perform P hcfg hcall g with ⟨e, s', hrun, hpast⟩ | ⟨g₁, hrun, hcharged, hfits⟩
    · refine .inl ⟨⟨_, List.mem_cons_self, ?_⟩, hpast.add _⟩
      rw [hrun]
      exact trivial
    · rw [outcomes, hrun]
      rcases ih hrest g₁ with ⟨⟨r, hr, hgas⟩, hpast⟩ | ⟨g', hrun', hcharged', hfits'⟩
      · exact .inl ⟨⟨r, List.mem_cons_of_mem _ hr, hgas⟩, hpast.of_charged hcharged⟩
      · refine .inr ⟨g', ?_, hcharged.trans hcharged', hfits.add hcharged hfits'⟩
        dsimp only
        rw [hrun']
        rfl

end Runs

/-! ### Writes that panic for gas -/

section Writes

variable {σ ι ε α β : Type} {s : GasKvState σ}

/-- The calls that write. -/
def KVCall.IsWrite : KVCall ι → Prop
  | .set _ _ => True
  | .delete _ => True
  | _ => False

/-- The computation does not touch the parent, whether it returns or panics. -/
def KeepsParent (x : GasKvM ε σ α) : Prop :=
  ∀ s, (outcome x s).2.parent = s.parent

/-- The rule for a sequence. -/
theorem KeepsParent.bind {x : GasKvM ε σ α}
    {f : α → GasKvM ε σ β} (hx : KeepsParent x)
    (hf : ∀ a, KeepsParent (f a)) : KeepsParent (x >>= f) :=
  snd_outcome_bind_rel (R := fun s s' : GasKvState σ => s'.parent = s.parent)
    (fun h h' => h'.trans h) hx hf

/-- A charge leaves the parent. -/
theorem keepsParent_consumeGas (meter : GasMeterKind) (amount : Gas) (descriptor : String) :
    KeepsParent (GasKv.consumeGas meter amount descriptor :
      GasKvM ε σ Unit) := by
  intro s
  rw [GasKv.consumeGas, outcome_embed]

theorem keepsParent_validate (x : Except Panic Unit) :
    KeepsParent (GasKv.validate x : GasKvM ε σ Unit) := by
  intro s
  rw [GasKv.validate, outcome_ofExcept]

/-- So do the charges of a `Set`. -/
theorem keepsParent_chargeSet (cfg : GasConfig) (meter : GasMeterKind) (key : Bytes)
    (value : Slice) :
    KeepsParent (GasKv.chargeSet cfg meter key value :
      GasKvM ε σ Unit) := by
  refine (keepsParent_validate _).bind fun _ => ?_
  refine (keepsParent_validate _).bind fun _ => ?_
  refine (keepsParent_consumeGas meter _ _).bind fun _ => ?_
  exact (keepsParent_consumeGas meter _ _).bind fun _ => keepsParent_consumeGas meter _ _

/-- Where only the parent is called after the charges, a panic for gas came before that. -/
theorem parent_of_isGasPanic {x : GasKvM ε σ Unit} (hx : KeepsParent x)
    {y : EStateM ε σ α} {f : α → β}
    (h : IsGasPanic (outcome ((x >>= fun _ => GasKv.onParent y) >>= fun a => pure (f a)) s).1) :
    (outcome ((x >>= fun _ => GasKv.onParent y) >>= fun a => pure (f a)) s).2.parent =
      s.parent := by
  rw [outcome_bind_pure] at h ⊢
  have hkept := hx s
  cases hout : outcome x s with
  | mk r s' =>
    rw [hout] at hkept
    cases r with
    | error e =>
      rw [outcome_bind_error hout]
      exact hkept
    | ok a =>
      rw [outcome_bind_ok hout, GasKv.onParent, outcome_embed] at h
      cases hr : (outcome y s'.parent).1 with
      | ok b | error e => rw [hr] at h; exact h.elim

/-- **A write that panics for gas** does not reach the parent. -/
theorem parent_of_write (P : ParentStore σ ι ε) (cfg : GasConfig) (meter : GasMeterKind)
    {call : KVCall ι} (hwrite : call.IsWrite)
    (h : IsGasPanic (outcome (GasKv.perform P cfg meter call) s).1) :
    (outcome (GasKv.perform P cfg meter call) s).2.parent = s.parent := by
  cases call with
  | set key value => exact parent_of_isGasPanic (keepsParent_chargeSet cfg meter key value) h
  | delete key => exact parent_of_isGasPanic (keepsParent_consumeGas meter _ _) h
  | get key | has key | iterator start stop ascending | next i | pair i => exact hwrite.elim

end Writes

/-! ### Traversals -/

section Traversals

variable {σ ι ε : Type} {P : ParentStore σ ι ε}

/-- From a state of the parent on, the iterator steps through some pairs, and is then not valid. -/
inductive ParentStore.Traverses (P : ParentStore σ ι ε) (i : ι) : σ → List (Bytes × Bytes) → Prop
  | done {p : σ} (h : P.current p i = none) : Traverses P i p []
  | step {p p' : σ} {pair : Bytes × Bytes} {pairs : List (Bytes × Bytes)}
      (h : P.current p i = some pair) (hnext : outcome (P.next i) p = (.ok (), p'))
      (rest : Traverses P i p' pairs) : Traverses P i p (pair :: pairs)

namespace ParentStore.Traverses

variable {i : ι} {p : σ} {pairs : List (Bytes × Bytes)}

theorem current_eq (h : P.Traverses i p pairs) : P.current p i = pairs.head? := by
  cases h with
  | done h => exact h
  | step h _ _ => exact h

/-- The steps of a traversal cost the pairs they leave, and the flat cost each. -/
theorem runCost_next (cfg : GasConfig) (h : P.Traverses i p pairs) :
    P.runCost cfg (List.replicate pairs.length (.next i)) p =
      (pairs.map cfg.pairCost).sum + pairs.length * cfg.iterNextCostFlat.toNat := by
  induction h with
  | done h => simp [runCost]
  | @step p p' pair pairs h hnext rest ih =>
    have hstate : (outcome (P.perform (.next i)) p).2 = p' := by
      rw [perform, outcome_bind_pure, hnext]
    have hcost : P.callCost cfg p (.next i) = cfg.pairCost pair + cfg.iterNextCostFlat.toNat := by
      rw [callCost, h]
      rfl
    rw [List.length_cons, List.replicate_succ, runCost, hstate, ih, hcost, List.map_cons,
      List.sum_cons, Nat.add_mul, Nat.one_mul]
    omega

/-- **A full traversal** costs the first pair when the iterator is created, each pair when it is
left, and the flat cost once more than there are pairs. -/
theorem runCost_traversal (cfg : GasConfig) {start stop : Slice} {ascending : Bool} {p₀ : σ}
    (hcreate : outcome (P.iterate start stop ascending) p₀ = (.ok i, p))
    (h : P.Traverses i p pairs) :
    P.runCost cfg (.iterator start stop ascending :: List.replicate pairs.length (.next i)) p₀ =
      pairs.head?.elim 0 cfg.pairCost + (pairs.map cfg.pairCost).sum +
        (pairs.length + 1) * cfg.iterNextCostFlat.toNat := by
  have hstate : (outcome (P.perform (.iterator start stop ascending)) p₀).2 = p := by
    rw [perform, outcome_bind_pure, hcreate]
  have hcost : P.callCost cfg p₀ (.iterator start stop ascending) =
      pairs.head?.elim 0 cfg.pairCost + cfg.iterNextCostFlat.toNat := by
    rw [callCost, hcreate]
    dsimp only
    rw [h.current_eq]
    rfl
  rw [runCost, hstate, hcost, h.runCost_next, Nat.add_mul, Nat.one_mul]
  omega

end ParentStore.Traverses

end Traversals

/-! ### Sorted maps as parents -/

/-- A store and its iterators, each with the pairs it has still to show. -/
structure OpenStore (π : Type) where
  store : π
  iterators : List (List (Bytes × Bytes))

namespace OpenStore

variable {π : Type}

/-- `Iterator` and `ReverseIterator`. -/
def iterator [KVStore π] (start stop : Slice) (ascending : Bool) :
    EStateM Panic (OpenStore π) ℕ := do
  let s ← MonadState.get
  let pairs ← ofExcept (KVStore.iterator s.store start stop ascending)
  set { s with iterators := s.iterators ++ [pairs] }
  return s.iterators.length

/-- `Next`. -/
def next (i : ℕ) : EStateM Panic (OpenStore π) Unit := do
  let s ← MonadState.get
  match s.iterators[i]? with
  | some (_ :: pairs) => set { s with iterators := s.iterators.set i pairs }
  | _ => throw (.text "iterator is invalid")

/-- The pair an iterator is at. -/
def current (s : OpenStore π) (i : ℕ) : Option (Bytes × Bytes) := s.iterators[i]?.bind List.head?

end OpenStore

/-- A sorted map as a parent. -/
def sortedParent (π : Type) [SortedMapStore π] : ParentStore (OpenStore π) ℕ Panic where
  get key := reading fun s => BasicKVStore.get s.store key
  set key value :=
    updating (fun s => do return { s with store := ← BasicKVStore.set s.store key value }) ()
  has key := reading fun s => HasKVStore.has s.store key
  delete key :=
    updating (fun s => do return { s with store := ← BasicKVStore.delete s.store key }) ()
  iterator start stop := OpenStore.iterator start stop true
  reverseIterator start stop := OpenStore.iterator start stop false
  next := OpenStore.next
  current := OpenStore.current

section SortedParents

variable {π : Type} [SortedMapStore π] {pairs : List (Bytes × Bytes)} {s : OpenStore π} {i : ℕ}
  {call : KVCall ℕ}

open SortedMapStore (contents)

/-- A new iterator comes behind the others. -/
theorem outcome_iterate (s : OpenStore π) (start stop : Slice) (ascending : Bool) :
    outcome ((sortedParent π).iterate start stop ascending) s =
      match KVStore.iterator s.store start stop ascending with
      | .ok pairs => (.ok s.iterators.length, { s with iterators := s.iterators ++ [pairs] })
      | .error e => (.error e, s) := by
  have hiterate : (sortedParent π).iterate start stop ascending =
      OpenStore.iterator start stop ascending := by
    cases ascending <;> rfl
  rw [hiterate, OpenStore.iterator, outcome_bind_ok (outcome_get s)]
  cases KVStore.iterator s.store start stop ascending <;> rfl

theorem outcome_next (s : OpenStore π) (i : ℕ) {pair : Bytes × Bytes}
    (h : s.iterators[i]? = some (pair :: pairs)) :
    outcome ((sortedParent π).next i) s =
      (.ok (), { s with iterators := s.iterators.set i pairs }) := by
  change outcome (OpenStore.next i) s = _
  rw [OpenStore.next, outcome_bind_ok (outcome_get s), h]
  rfl

theorem current_of_iterators (h : s.iterators[i]? = some pairs) :
    (sortedParent π).current s i = pairs.head? := by
  change s.iterators[i]?.bind List.head? = _
  rw [h, Option.bind_some]

/-- An iterator steps through the pairs it has still to show. -/
theorem traverses_of_iterators (h : s.iterators[i]? = some pairs) :
    (sortedParent π).Traverses i s pairs := by
  induction pairs generalizing s with
  | nil => exact .done (current_of_iterators h)
  | cons pair pairs ih =>
    have hlt : i < s.iterators.length := (List.getElem?_eq_some_iff.mp h).1
    exact .step (current_of_iterators h) (outcome_next s i h) (ih (List.getElem?_set_self hlt))

/-- **An iterator of a sorted map** traverses the pairs of its range. -/
theorem traverses_of_iterate {start stop : Slice} {ascending : Bool}
    (h : KVStore.iterator s.store start stop ascending = .ok pairs) :
    ∃ i s', outcome ((sortedParent π).iterate start stop ascending) s = (.ok i, s') ∧
      (sortedParent π).Traverses i s' pairs := by
  refine ⟨s.iterators.length, { s with iterators := s.iterators ++ [pairs] }, ?_, ?_⟩
  · rw [outcome_iterate, h]
  · exact traverses_of_iterators List.getElem?_concat_length

/-- What the store holds, and what its iterators have still to show, is within the limits of
validity. -/
structure OpenStore.Fit (s : OpenStore π) : Prop where
  contents_fit : ∀ k v, contents s.store k = some v →
    k.length ≤ maxKeyLength ∧ v.length ≤ maxValueLength
  iterators_fit : ∀ pairs ∈ s.iterators, ∀ pair ∈ pairs,
    pair.1.length ≤ maxKeyLength ∧ pair.2.length ≤ maxValueLength

/-- The keys and values of a call are valid. -/
def KVCall.Valid {ι : Type} : KVCall ι → Prop
  | .get key => ValidKey key
  | .set key value => ValidKey key ∧ ∃ v, value = some v ∧ ValidValue v
  | .has key => ValidKey key
  | .delete key => ValidKey key
  | .iterator _ _ _ => True
  | .next _ => True
  | .pair _ => True

theorem OpenStore.Fit.pairFits (hs : s.Fit) (i : ℕ) :
    ParentStore.PairFits ((sortedParent π).current s i) := by
  intro pair hpair
  cases hi : s.iterators[i]? with
  | none =>
    have hnone : (sortedParent π).current s i = none := by
      change s.iterators[i]?.bind List.head? = none
      rw [hi, Option.bind_none]
    rw [hnone] at hpair
    cases hpair
  | some pairs =>
    rw [current_of_iterators hi] at hpair
    exact hs.iterators_fit pairs (List.mem_of_getElem? hi) pair (List.mem_of_mem_head? hpair)

/-- A new iterator shows what fits. -/
theorem OpenStore.Fit.iterate (hs : s.Fit) (start stop : Slice) (ascending : Bool) :
    (outcome ((sortedParent π).iterate start stop ascending) s).2.Fit := by
  rw [outcome_iterate]
  cases hiter : KVStore.iterator s.store start stop ascending with
  | error e => exact hs
  | ok pairs =>
    refine ⟨hs.contents_fit, fun pairs' hmem pair hpair => ?_⟩
    rcases List.mem_append.mp hmem with hmem | hmem
    · exact hs.iterators_fit pairs' hmem pair hpair
    · obtain rfl := List.mem_singleton.mp hmem
      have hrange := (SortedMapStore.mem_iterator s.store start stop ascending pairs' hiter
        pair.1 pair.2).mp hpair
      exact hs.contents_fit pair.1 pair.2 hrange.2

/-- It still does after `Next`. -/
theorem OpenStore.Fit.next (hs : s.Fit) (i : ℕ) : (outcome ((sortedParent π).next i) s).2.Fit := by
  cases hi : s.iterators[i]? with
  | none =>
    change (outcome (OpenStore.next i) s).2.Fit
    rw [OpenStore.next, outcome_bind_ok (outcome_get s), hi]
    exact hs
  | some pairs =>
    cases pairs with
    | nil =>
      change (outcome (OpenStore.next i) s).2.Fit
      rw [OpenStore.next, outcome_bind_ok (outcome_get s), hi]
      exact hs
    | cons pair pairs =>
      rw [outcome_next s i hi]
      refine ⟨hs.contents_fit, fun pairs' hmem pair' hpair' => ?_⟩
      rcases List.mem_or_eq_of_mem_set hmem with hmem | rfl
      · exact hs.iterators_fit pairs' hmem pair' hpair'
      · exact hs.iterators_fit _ (List.mem_of_getElem? hi) pair'
          (List.mem_cons_of_mem pair hpair')

/-- A write that keeps the contents within the limits keeps the store within them. -/
theorem OpenStore.Fit.update (hs : s.Fit) {f : π → Except Panic π}
    (hf : ∀ store, f s.store = .ok store → ∀ k v, contents store k = some v →
      k.length ≤ maxKeyLength ∧ v.length ≤ maxValueLength) :
    (outcome (updating
      (fun s : OpenStore π => do return { s with store := ← f s.store }) ()) s).2.Fit := by
  cases hout : f s.store with
  | error e =>
    rw [outcome_updating_of_error (e := e) (by rw [hout]; rfl)]
    exact hs
  | ok store =>
    have hupdate : (do return { s with store := ← f s.store } : Except Panic (OpenStore π)) =
        .ok { s with store } := by
      rw [hout]
      rfl
    rw [outcome_updating_of_ok hupdate]
    exact ⟨hf store hout, hs.iterators_fit⟩

/-- What a sorted map answers with is within the limits if what it holds is. -/
theorem fits_of_valid (hs : s.Fit) (hcall : call.Valid) : (sortedParent π).Fits s call := by
  cases call with
  | get key =>
    have hkey : ValidKey key := hcall
    refine ⟨hkey.2, fun value hvalue => ?_⟩
    have hget : BasicKVStore.get s.store key = .ok value := by
      change (outcome (reading fun s : OpenStore π => BasicKVStore.get s.store key) s).1 = _
        at hvalue
      rwa [outcome_reading] at hvalue
    obtain rfl := Except.ok.inj ((SortedMapStore.get_eq s.store key hkey.1).symm.trans hget)
    cases hcontents : contents s.store key with
    | none => exact Nat.zero_le _
    | some v => exact (hs.contents_fit key v hcontents).2
  | set key value => exact hcall
  | iterator start stop ascending =>
    intro i s' hout
    have hfit := hs.iterate start stop ascending
    rw [hout] at hfit
    exact hfit.pairFits i
  | next i => exact hs.pairFits i
  | has key | delete key | pair i => exact trivial

/-- The calls keep a sorted map within the limits. -/
theorem fit_perform (hs : s.Fit) (hcall : call.Valid) :
    (outcome ((sortedParent π).perform call) s).2.Fit := by
  have hread {α : Type} (f : OpenStore π → Except Panic α) : (outcome (reading f) s).2.Fit := by
    rwa [outcome_reading]
  cases call with
  | get key | has key | pair i =>
    rw [ParentStore.perform, outcome_bind_pure]
    exact hread _
  | set key value =>
    obtain ⟨hkey, v, rfl, hv⟩ := hcall
    rw [ParentStore.perform, outcome_bind_pure]
    refine hs.update (f := fun store => BasicKVStore.set store key (some v))
      fun store hset k w hw => ?_
    by_cases hacc : SortedMapStore.Accepts π key
    · obtain ⟨store', hset', hcontents⟩ := SortedMapStore.set_eq s.store key v hkey.1 hacc hv
      obtain rfl := Except.ok.inj (hset'.symm.trans hset)
      rw [hcontents] at hw
      split_ifs at hw with hk
      · obtain rfl := Option.some.inj hw
        exact ⟨hk ▸ hkey.2, hv⟩
      · exact hs.contents_fit k w hw
    · obtain ⟨e, he⟩ := SortedMapStore.set_refused s.store key (some v) hacc
      cases he.symm.trans hset
  | delete key =>
    have hkey : ValidKey key := hcall
    rw [ParentStore.perform, outcome_bind_pure]
    refine hs.update (f := fun store => BasicKVStore.delete store key)
      fun store hdelete k w hw => ?_
    obtain ⟨store', hdelete', hcontents⟩ := SortedMapStore.delete_eq s.store key hkey.1
    obtain rfl := Except.ok.inj (hdelete'.symm.trans hdelete)
    rw [hcontents] at hw
    split_ifs at hw with hk
    exact hs.contents_fit k w hw
  | iterator start stop ascending =>
    rw [ParentStore.perform, outcome_bind_pure]
    exact hs.iterate start stop ascending
  | next i =>
    rw [ParentStore.perform, outcome_bind_pure]
    exact hs.next i

/-- **Over a sorted map** within the limits, every run of valid calls is within them. -/
theorem runFits_of_valid {calls : List (KVCall ℕ)} (h : ∀ call ∈ calls, call.Valid) (hs : s.Fit) :
    (sortedParent π).RunFits calls s := by
  induction calls generalizing s with
  | nil => exact trivial
  | cons call calls ih =>
    obtain ⟨hcall, hrest⟩ := List.forall_mem_cons.mp h
    exact ⟨fits_of_valid hs hcall, ih hrest (fit_perform hs hcall)⟩

end SortedParents

/-! ### Metered stores -/

/-- **A metered store changes nothing but gas.** In every run of calls within the limits of
validity, some call panics for gas exactly if the costs of the calls, added up, do not fit into what
the meter has left. As long as none does, the calls return what they return of the parent alone, the
parent is in the state it would be in, and the meter has counted the costs. A write that then panics
for gas leaves the parent as it is. A full traversal costs the first pair when the iterator is
created, each pair when it is left, and the flat cost once more than there are pairs. -/
theorem gasKv_exact {σ ι ε : Type} (P : ParentStore σ ι ε) (meter : GasMeterKind) {cfg : GasConfig}
    (hcfg : cfg ∈ [kvGasConfig, transientGasConfig]) :
    (∀ (calls : List (KVCall ι)) (g : GasCounters) (p : σ), P.RunFits calls p →
      (∀ n, g.count g.namespaceId = .ok n → n.toNat ≤ meter.limit.toNat →
        ((∃ r ∈ (outcomes (GasKv.perform P cfg meter) calls ⟨g, p⟩).1, IsGasPanic r) ↔
          meter.limit.toNat < n.toNat + P.runCost cfg calls p)) ∧
      ((∀ r ∈ (outcomes (GasKv.perform P cfg meter) calls ⟨g, p⟩).1, ¬ IsGasPanic r) →
        ∃ g', outcomes (GasKv.perform P cfg meter) calls ⟨g, p⟩ =
            ((outcomes P.perform calls p).1.map (Except.mapError .parent),
              ⟨g', (outcomes P.perform calls p).2⟩) ∧
          g.Charged g' (P.runCost cfg calls p) ∧
          ∀ call : KVCall ι, call.IsWrite →
            IsGasPanic
              (outcome (GasKv.perform P cfg meter call) ⟨g', (outcomes P.perform calls p).2⟩).1 →
            (outcome (GasKv.perform P cfg meter call)
              ⟨g', (outcomes P.perform calls p).2⟩).2.parent = (outcomes P.perform calls p).2)) ∧
    ∀ start stop ascending p i p' pairs,
      outcome (P.iterate start stop ascending) p = (.ok i, p') → P.Traverses i p' pairs →
      P.runCost cfg (.iterator start stop ascending :: List.replicate pairs.length (.next i)) p =
        pairs.head?.elim 0 cfg.pairCost + (pairs.map cfg.pairCost).sum +
          (pairs.length + 1) * cfg.iterNextCostFlat.toNat := by
  have hsmall := small_of_mem hcfg
  refine ⟨fun calls g p hfits => ?_,
    fun start stop ascending p i p' pairs hcreate h => h.runCost_traversal cfg hcreate⟩
  rcases meteredRun hsmall meter hfits g with ⟨hgas, hpast⟩ | ⟨g', hrun, hcharged, hwithin⟩
  · refine ⟨fun n hn _ => iff_of_true hgas (hpast n hn), fun hnone => ?_⟩
    obtain ⟨r, hr, hgas⟩ := hgas
    exact absurd hgas (hnone r hr)
  · refine ⟨fun n hn hle => iff_of_false ?_ (not_lt.mpr (hwithin n hn hle)), fun _ => ?_⟩
    · rintro ⟨r, hr, hgas⟩
      rw [hrun] at hr
      obtain ⟨r', -, rfl⟩ := List.mem_map.mp hr
      exact not_isGasPanic_mapError r' hgas
    · exact ⟨g', hrun, hcharged, fun call hwrite => parent_of_write P cfg meter hwrite⟩

/-- A pair is set and read, and a traversal meets it. -/
def fourCalls : List (KVCall ℕ) :=
  [.set [1] (some [2, 3]), .get [1], .iterator none none true, .next 0]

/-- Over an empty database, with a limit of 3177, which is what the calls cost. -/
theorem gasKv_exact_of_four :
    ∃ g', outcomes (GasKv.perform (sortedParent DbAdapter) kvGasConfig (.basic 3177)) fourCalls
        ⟨.newGasMeter, ⟨.empty, []⟩⟩ =
      ((outcomes (sortedParent DbAdapter).perform fourCalls ⟨.empty, []⟩).1.map
          (Except.mapError .parent),
        ⟨g', (outcomes (sortedParent DbAdapter).perform fourCalls ⟨.empty, []⟩).2⟩) ∧
      GasCounters.newGasMeter.Charged g' 3177 := by
  have hcost : (sortedParent DbAdapter).runCost kvGasConfig fourCalls ⟨.empty, []⟩ = 3177 := by
    decide +kernel
  have hfit : (⟨.empty, []⟩ : OpenStore DbAdapter).Fit := by
    refine ⟨fun k v h => ?_, fun pairs h => ?_⟩
    · cases h
    · cases h
  have hvalid : ∀ call ∈ fourCalls, call.Valid := by
    refine List.forall_mem_cons.mpr ⟨⟨by decide, [2, 3], rfl, by decide⟩, ?_⟩
    refine List.forall_mem_cons.mpr ⟨(by decide : ValidKey [1]), ?_⟩
    refine List.forall_mem_cons.mpr ⟨trivial, ?_⟩
    exact List.forall_mem_cons.mpr ⟨trivial, List.forall_mem_nil _⟩
  obtain ⟨hpanics, hrun⟩ := (gasKv_exact (sortedParent DbAdapter) (.basic 3177)
    List.mem_cons_self).1 fourCalls .newGasMeter ⟨.empty, []⟩ (runFits_of_valid hvalid hfit)
  rw [hcost] at hpanics hrun
  obtain ⟨g', hout, hcharged, -⟩ := hrun fun r hr hgas =>
    absurd ((hpanics 0 rfl (by decide)).mp ⟨r, hr, hgas⟩) (by decide)
  exact ⟨g', hout, hcharged⟩

end MelodiaStore
