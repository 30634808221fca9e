import MelodiaStore.GasRace
import MelodiaStore.Types

/-!
# Metered Stores

`gaskv/store.go`: a store that hands every call on to its parent, and charges a gas meter for it.
Some charges are made before the parent is called and some after it, when the length of a value is
known. An iterator charges for the pair it is at when it is created, and again before each step.

The parent is any store: its calls may return, panic and change its state as they like. Its
iterators are part of its state, and `Valid`, `Key` and `Value` of an iterator read that state; what
a parent writes elsewhere when it is read, as a tracing store does, is not part of it.

Costs are natural numbers. `Metered` says of a computation that it does what the parent does and
costs so much: it panics for gas exactly if the meter has not so much left, and otherwise counts
it. Costs of computations that follow each other add up (`Metered.bind`).

## Main results

* `consumeGas_cases`: a charge panics exactly if it takes the meter past its limit, and is counted
  otherwise.
* `metered_perform`: a call of a metered store is the call of its parent, at the cost of the call.
-/

namespace MelodiaStore

/-! ### The parent -/

/-- A `types.KVStore` with its iterators. `current` is the pair an iterator is at, where it is
valid: `Valid`, `Key` and `Value` only read. The tracked iterators of `multiversion`, which record
keys there and can abort, are no such parents. -/
structure ParentStore (σ ι ε : Type) where
  get : Bytes → EStateM ε σ Slice
  set : Bytes → Slice → EStateM ε σ Unit
  has : Bytes → EStateM ε σ Bool
  delete : Bytes → EStateM ε σ Unit
  iterator : Slice → Slice → EStateM ε σ ι
  reverseIterator : Slice → Slice → EStateM ε σ ι
  next : ι → EStateM ε σ Unit
  current : σ → ι → Option (Bytes × Bytes)

/-- A call of a store, or of one of its iterators. -/
inductive KVCall (ι : Type)
  | get (key : Bytes)
  | set (key : Bytes) (value : Slice)
  | has (key : Bytes)
  | delete (key : Bytes)
  | iterator (start stop : Slice) (ascending : Bool)
  | next (i : ι)
  /-- `Valid`, and `Key` and `Value` if it is -/
  | pair (i : ι)

/-- What a call returns. -/
inductive KVAnswer (ι : Type)
  | done
  | value (v : Slice)
  | bool (b : Bool)
  | iter (i : ι)
  | pair (p : Option (Bytes × Bytes))
  deriving DecidableEq

namespace ParentStore

variable {σ ι ε : Type} (P : ParentStore σ ι ε)

/-- `Iterator` or `ReverseIterator`. -/
def iterate (start stop : Slice) (ascending : Bool) : EStateM ε σ ι :=
  if ascending then P.iterator start stop else P.reverseIterator start stop

/-- The pair an iterator is at. -/
def pair (i : ι) : EStateM ε σ (Option (Bytes × Bytes)) := reading fun p => .ok (P.current p i)

/-- Perform a call. -/
def perform : KVCall ι → EStateM ε σ (KVAnswer ι)
  | .get key => do return .value (← P.get key)
  | .set key value => do P.set key value; return .done
  | .has key => do return .bool (← P.has key)
  | .delete key => do P.delete key; return .done
  | .iterator start stop ascending => do return .iter (← P.iterate start stop ascending)
  | .next i => do P.next i; return .done
  | .pair i => do return .pair (← P.pair i)

end ParentStore

/-! ### The store -/

/-- `types.GasConfig`. -/
structure GasConfig where
  hasCost : Gas
  deleteCost : Gas
  readCostFlat : Gas
  readCostPerByte : Gas
  writeCostFlat : Gas
  writeCostPerByte : Gas
  iterNextCostFlat : Gas

/-- `types.KVGasConfig`. -/
def kvGasConfig : GasConfig where
  hasCost := 1000
  deleteCost := 1000
  readCostFlat := 1000
  readCostPerByte := 3
  writeCostFlat := 2000
  writeCostPerByte := 30
  iterNextCostFlat := 30

/-- `types.TransientGasConfig`. -/
def transientGasConfig : GasConfig where
  hasCost := 100
  deleteCost := 100
  readCostFlat := 100
  readCostPerByte := 0
  writeCostFlat := 200
  writeCostPerByte := 3
  iterNextCostFlat := 3

/-- What a call of a metered store panics with. -/
inductive GasKvPanic (ε : Type)
  /-- a panic of the meter -/
  | gas (e : GasPanic)
  /-- a key or a value that is not valid -/
  | invalid (e : Panic)
  /-- a panic of the parent -/
  | parent (e : ε)

/-- The meter and the parent of a metered store, which it shares with others. -/
structure GasKvState (σ : Type) where
  gasMeter : GasCounters
  parent : σ

/-- The calls of a metered store. -/
abbrev GasKvM (ε σ : Type) := EStateM (GasKvPanic ε) (GasKvState σ)

/-- The call panics for gas. -/
def IsGasPanic {ε α : Type} : Except (GasKvPanic ε) α → Prop
  | .error (.gas _) => True
  | _ => False

namespace GasKv

section Calls

variable {σ ι ε α : Type}

/-- A call of the parent. -/
def onParent (x : EStateM ε σ α) : GasKvM ε σ α :=
  embed .parent GasKvState.parent (fun parent s => { s with parent }) x

/-- A check that does not look at the state. -/
def validate (x : Except Panic Unit) : GasKvM ε σ Unit :=
  ofExcept (x.mapError .invalid)

/-- `gasMeter.ConsumeGas`. -/
def consumeGas (meter : GasMeterKind) (amount : Gas) (descriptor : String) :
    GasKvM ε σ Unit :=
  embed .gas GasKvState.gasMeter (fun gasMeter s => { s with gasMeter })
    (meter.consumeGas amount descriptor)

variable (P : ParentStore σ ι ε) (cfg : GasConfig) (meter : GasMeterKind)

/-- `gaskv.Store.Get`. -/
def get (key : Bytes) : GasKvM ε σ Slice := do
  consumeGas meter cfg.readCostFlat "ReadFlat"
  let value ← onParent (P.get key)
  consumeGas meter (cfg.readCostPerByte * UInt64.ofNat key.length) "ReadPerByte"
  consumeGas meter (cfg.readCostPerByte * UInt64.ofNat (value.getD []).length) "ReadPerByte"
  return value

/-- What `gaskv.Store.Set` does before it calls the parent. -/
def chargeSet (key : Bytes) (value : Slice) : GasKvM ε σ Unit := do
  validate (assertValidKey key)
  validate (assertValidValue value)
  consumeGas meter cfg.writeCostFlat "WriteFlat"
  consumeGas meter (cfg.writeCostPerByte * UInt64.ofNat key.length) "WritePerByte"
  consumeGas meter (cfg.writeCostPerByte * UInt64.ofNat (value.getD []).length) "WritePerByte"

/-- `gaskv.Store.Set`. -/
def set (key : Bytes) (value : Slice) : GasKvM ε σ Unit := do
  chargeSet cfg meter key value
  onParent (P.set key value)

/-- `gaskv.Store.Has`. -/
def has (key : Bytes) : GasKvM ε σ Bool := do
  consumeGas meter cfg.hasCost "Has"
  onParent (P.has key)

/-- `gaskv.Store.Delete`. -/
def delete (key : Bytes) : GasKvM ε σ Unit := do
  consumeGas meter cfg.deleteCost "Delete"
  onParent (P.delete key)

/-- What `consumeSeekGas` consumes where the iterator is valid. -/
def consumePair : Option (Bytes × Bytes) → GasKvM ε σ Unit
  | none => return
  | some (key, value) => do
    consumeGas meter (cfg.readCostPerByte * UInt64.ofNat key.length) "ValuePerByte"
    consumeGas meter (cfg.readCostPerByte * UInt64.ofNat value.length) "ValuePerByte"

/-- `gasIterator.consumeSeekGas`. An iterator of the store is the one of its parent, with the meter
and the costs of the store. -/
def consumeSeekGas (i : ι) : GasKvM ε σ Unit := do
  let pair ← onParent (P.pair i)
  consumePair cfg meter pair
  consumeGas meter cfg.iterNextCostFlat "IterNextFlat"

/-- `gaskv.Store.iterator`. -/
def iterator (start stop : Slice) (ascending : Bool) :
    GasKvM ε σ ι := do
  let i ← onParent (P.iterate start stop ascending)
  consumeSeekGas P cfg meter i
  return i

/-- `gasIterator.Next`. -/
def next (i : ι) : GasKvM ε σ Unit := do
  consumeSeekGas P cfg meter i
  onParent (P.next i)

/-- Perform a call. -/
def perform : KVCall ι → GasKvM ε σ (KVAnswer ι)
  | .get key => do return .value (← get P cfg meter key)
  | .set key value => do set P cfg meter key value; return .done
  | .has key => do return .bool (← has P cfg meter key)
  | .delete key => do delete P cfg meter key; return .done
  | .iterator start stop ascending => do return .iter (← iterator P cfg meter start stop ascending)
  | .next i => do next P cfg meter i; return .done
  | .pair i => do return .pair (← onParent (P.pair i))

end Calls

end GasKv

/-! ### Costs -/

namespace GasConfig

variable (cfg : GasConfig)

/-- What a pair costs an iterator, apart from the flat cost. -/
def pairCost (pair : Bytes × Bytes) : ℕ :=
  cfg.readCostPerByte.toNat * (pair.1.length + pair.2.length)

/-- What an iterator costs when it is created and when it steps. -/
def seekCost (pair : Option (Bytes × Bytes)) : ℕ :=
  pair.elim 0 cfg.pairCost + cfg.iterNextCostFlat.toNat

end GasConfig

namespace ParentStore

variable {σ ι ε : Type} (P : ParentStore σ ι ε) (cfg : GasConfig)

/-- What a call costs when the parent is in a state. -/
def callCost (p : σ) : KVCall ι → ℕ
  | .get key =>
    cfg.readCostFlat.toNat +
      match (outcome (P.get key) p).1 with
      | .ok value => cfg.readCostPerByte.toNat * (key.length + (value.getD []).length)
      | .error _ => 0
  | .set key value =>
    cfg.writeCostFlat.toNat +
      cfg.writeCostPerByte.toNat * (key.length + (value.getD []).length)
  | .has _ => cfg.hasCost.toNat
  | .delete _ => cfg.deleteCost.toNat
  | .iterator start stop ascending =>
    match outcome (P.iterate start stop ascending) p with
    | (.ok i, p') => cfg.seekCost (P.current p' i)
    | (.error _, _) => 0
  | .next i => cfg.seekCost (P.current p i)
  | .pair _ => 0

/-- What a list of calls costs. -/
def runCost : List (KVCall ι) → σ → ℕ
  | [], _ => 0
  | call :: calls, p => P.callCost cfg p call + runCost calls (outcome (P.perform call) p).2

/-- The lengths of a pair are within the limits of validity. -/
def PairFits (pair : Option (Bytes × Bytes)) : Prop :=
  ∀ pr ∈ pair, pr.1.length ≤ maxKeyLength ∧ pr.2.length ≤ maxValueLength

/-- The keys and values of a call, and those the parent answers with, are within the limits of
validity. -/
def Fits (p : σ) : KVCall ι → Prop
  | .get key => key.length ≤ maxKeyLength ∧
      ∀ value, (outcome (P.get key) p).1 = .ok value → (value.getD []).length ≤ maxValueLength
  | .set key value => ValidKey key ∧ ∃ v, value = some v ∧ ValidValue v
  | .has _ => True
  | .delete _ => True
  | .iterator start stop ascending => ∀ i p',
      outcome (P.iterate start stop ascending) p = (.ok i, p') → PairFits (P.current p' i)
  | .next i => PairFits (P.current p i)
  | .pair _ => True

/-- All calls of a list are within the limits. -/
def RunFits : List (KVCall ι) → σ → Prop
  | [], _ => True
  | call :: calls, p => P.Fits p call ∧ RunFits calls (outcome (P.perform call) p).2

end ParentStore

/-! ### What a meter counts -/

/-- The meter has counted a cost in its namespace, and nothing else. -/
structure GasCounters.Charged (g g' : GasCounters) (cost : ℕ) : Prop where
  namespaceId_eq : g'.namespaceId = g.namespaceId
  count_eq : ∀ n, g.count g.namespaceId = .ok n →
    ∃ m, g'.count g.namespaceId = .ok m ∧ m.toNat = n.toNat + cost
  count_ne : ∀ id, id ≠ g.namespaceId → g'.count id = g.count id

namespace GasCounters.Charged

variable {g g' g'' : GasCounters} {c d : ℕ}

theorem refl (g : GasCounters) : g.Charged g 0 := ⟨rfl, fun n h => ⟨n, h, rfl⟩, fun _ _ => rfl⟩

/-- Charges add up. -/
theorem trans (h : g.Charged g' c) (h' : g'.Charged g'' d) : g.Charged g'' (c + d) := by
  have hid := h.namespaceId_eq
  refine ⟨h'.namespaceId_eq.trans hid, fun n hn => ?_, fun id hne => ?_⟩
  · obtain ⟨m, hm, hsum⟩ := h.count_eq n hn
    obtain ⟨k, hk, hsum'⟩ := h'.count_eq m (by rwa [hid])
    refine ⟨k, by rwa [← hid], ?_⟩
    omega
  · rw [h'.count_ne id (by rwa [hid]), h.count_ne id hne]

theorem of_count {n amount : Gas} (h : g.count g.namespaceId = .ok n)
    (hfits : n.toNat + amount.toNat < 2 ^ 64) (hid : g'.namespaceId = g.namespaceId)
    (hcount : ∀ id, g'.count id = if id = g.namespaceId then .ok (n + amount) else g.count id) :
    g.Charged g' amount.toNat := by
  refine ⟨hid, fun n' hn' => ⟨n + amount, ?_, ?_⟩, fun id hne => ?_⟩
  · rw [hcount, if_pos rfl]
  · obtain rfl := Except.ok.inj (h.symm.trans hn')
    exact GasCounters.toNat_add_of_fits hfits
  · rw [hcount, if_neg hne]

end GasCounters.Charged

namespace GasMeterKind

open GasCounters

/-- `Limit`. -/
def limit : GasMeterKind → Gas
  | basic limit => limit
  | infinite => maxUint64

/-- A cost takes the meter past its limit. -/
def Past (meter : GasMeterKind) (g : GasCounters) (cost : ℕ) : Prop :=
  ∀ n, g.count g.namespaceId = .ok n → meter.limit.toNat < n.toNat + cost

/-- A cost does not take the meter past its limit, if it has not been past it. -/
def Within (meter : GasMeterKind) (g : GasCounters) (cost : ℕ) : Prop :=
  ∀ n, g.count g.namespaceId = .ok n → n.toNat ≤ meter.limit.toNat →
    n.toNat + cost ≤ meter.limit.toNat

section Limits

variable {meter : GasMeterKind} {g g' : GasCounters} {c d : ℕ} {n amount : Gas}

theorem Past.add (h : meter.Past g c) (d : ℕ) : meter.Past g (c + d) := by
  intro n hn
  have := h n hn
  omega

theorem Past.of_charged (hcharged : g.Charged g' c) (h : meter.Past g' d) :
    meter.Past g (c + d) := by
  intro n hn
  obtain ⟨m, hm, hsum⟩ := hcharged.count_eq n hn
  have := h m (by rwa [hcharged.namespaceId_eq])
  omega

theorem within_zero (meter : GasMeterKind) (g : GasCounters) : meter.Within g 0 :=
  fun _ _ hle => hle

/-- Charges within the limit add up. -/
theorem Within.add (h : meter.Within g c) (hcharged : g.Charged g' c) (h' : meter.Within g' d) :
    meter.Within g (c + d) := by
  intro n hn hle
  obtain ⟨m, hm, hsum⟩ := hcharged.count_eq n hn
  have hle' := h n hn hle
  have := h' m (by rwa [hcharged.namespaceId_eq]) (by omega)
  omega

/-- A charge that does not overflow: out of gas, or counted. -/
theorem consumeGas_of_fits (meter : GasMeterKind) (hread : g.count g.namespaceId = .ok n)
    (hfits : n.toNat + amount.toNat < 2 ^ 64) (descriptor : String) :
    (∃ e g', outcome (meter.consumeGas amount descriptor) g = (.error e, g') ∧
      meter.limit.toNat < n.toNat + amount.toNat) ∨
    ∃ g', outcome (meter.consumeGas amount descriptor) g = (.ok (), g') ∧
      g.Charged g' amount.toNat ∧ n.toNat + amount.toNat ≤ meter.limit.toNat := by
  cases meter with
  | basic limit =>
    have hsum := toNat_add_of_fits hfits
    obtain ⟨g', hcall, hid, hcount⟩ :=
      BasicGasMeter.outcome_consumeGas hread hfits limit descriptor
    by_cases hlimit : limit < n + amount
    · rw [if_pos hlimit] at hcall
      rw [UInt64.lt_iff_toNat_lt, hsum] at hlimit
      exact .inl ⟨_, g', hcall, hlimit⟩
    · rw [if_neg hlimit] at hcall
      rw [UInt64.not_lt, UInt64.le_iff_toNat_le, hsum] at hlimit
      exact .inr ⟨g', hcall, .of_count hread hfits hid hcount, hlimit⟩
  | infinite =>
    obtain ⟨g', hcall, hid, hcount⟩ :=
      InfiniteGasMeter.outcome_consumeGas hread hfits descriptor
    refine .inr ⟨g', hcall, .of_count hread hfits hid hcount, ?_⟩
    rw [limit, toNat_maxUint64]
    omega

end Limits

/-- **`ConsumeGas`** panics exactly if the sum is past the limit, and counts the amount
otherwise. -/
theorem consumeGas_cases (meter : GasMeterKind) (amount : Gas) (descriptor : String)
    (g : GasCounters) :
    (∃ e g', outcome (meter.consumeGas amount descriptor) g = (.error e, g') ∧
      meter.Past g amount.toNat) ∨
    ∃ g', outcome (meter.consumeGas amount descriptor) g = (.ok (), g') ∧
      g.Charged g' amount.toNat ∧ meter.Within g amount.toNat := by
  cases hread : g.count g.namespaceId with
  | error e =>
    refine .inl ⟨e, g, outcome_consumeGas_of_error meter hread descriptor, fun n hn => ?_⟩
    cases hread.symm.trans hn
  | ok n =>
    have honly : ∀ m, g.count g.namespaceId = .ok m → m = n := fun m hm =>
      Except.ok.inj (hm.symm.trans hread)
    by_cases hfits : n.toNat + amount.toNat < 2 ^ 64
    · rcases consumeGas_of_fits meter hread hfits descriptor with ⟨e, g', hcall, hpast⟩ |
        ⟨g', hcall, hcharged, hwithin⟩
      · exact .inl ⟨e, g', hcall, fun m hm => by rwa [honly m hm]⟩
      · exact .inr ⟨g', hcall, hcharged, fun m hm _ => by rwa [honly m hm]⟩
    · have hmax := meter.limit.toNat_lt
      obtain ⟨g', hcall, -⟩ :=
        outcome_consumeGas_of_overflow meter hread (not_lt.mp hfits) descriptor
      refine .inl ⟨_, g', hcall, fun m hm => ?_⟩
      rw [honly m hm]
      omega

end GasMeterKind

/-! ### Computations and their costs -/

section Metered

variable {σ ι ε α β : Type} {meter : GasMeterKind} {p p' p'' : σ} {c d : ℕ}
  {x : GasKvM ε σ α} {r : Except ε α}

/-- The computation does to the parent what is said, and returns or panics as is said, at a cost:
it panics for gas if the cost does not fit into what the meter has left, and only then. -/
def Metered (meter : GasMeterKind) (x : GasKvM ε σ α) (p : σ)
    (r : Except ε α) (p' : σ) (cost : ℕ) : Prop :=
  ∀ g : GasCounters,
    (∃ e s', outcome x ⟨g, p⟩ = (.error (.gas e), s') ∧ meter.Past g cost) ∨
    ∃ g', outcome x ⟨g, p⟩ = (r.mapError .parent, ⟨g', p'⟩) ∧ g.Charged g' cost ∧
      meter.Within g cost

/-- What a charge costs. -/
theorem metered_consumeGas (amount : Gas) (descriptor : String) (p : σ) :
    Metered meter (GasKv.consumeGas meter amount descriptor :
      GasKvM ε σ Unit) p (.ok ()) p amount.toNat := by
  intro g
  rw [GasKv.consumeGas, outcome_embed]
  rcases meter.consumeGas_cases amount descriptor g with ⟨e, g', hcall, hpast⟩ |
    ⟨g', hcall, hcharged, hfits⟩
  · rw [hcall]
    exact .inl ⟨e, _, rfl, hpast⟩
  · rw [hcall]
    exact .inr ⟨g', rfl, hcharged, hfits⟩

/-- The parent costs nothing. -/
theorem metered_onParent {x : EStateM ε σ α} (h : outcome x p = (r, p')) :
    Metered meter (GasKv.onParent x) p r p' 0 := by
  intro g
  refine .inr ⟨g, ?_, .refl g, meter.within_zero g⟩
  rw [GasKv.onParent, outcome_embed, h]

theorem metered_pure (a : α) (p : σ) :
    Metered meter (pure a : GasKvM ε σ α) p (.ok a) p 0 :=
  fun g => .inr ⟨g, rfl, .refl g, meter.within_zero g⟩

/-- **Sequencing**: the costs add up. -/
theorem Metered.bind {f : α → GasKvM ε σ β} {a : α} {r : Except ε β}
    (hx : Metered meter x p (.ok a) p' c) (hf : Metered meter (f a) p' r p'' d) :
    Metered meter (x >>= f) p r p'' (c + d) := by
  intro g
  rcases hx g with ⟨e, s', hrun, hpast⟩ | ⟨g', hrun, hcharged, hfits⟩
  · exact .inl ⟨e, s', outcome_bind_error hrun, hpast.add d⟩
  · rw [outcome_bind_ok hrun]
    rcases hf g' with ⟨e, s', hrun', hpast⟩ | ⟨g'', hrun', hcharged', hfits'⟩
    · exact .inl ⟨e, s', hrun', hpast.of_charged hcharged⟩
    · exact .inr ⟨g'', hrun', hcharged.trans hcharged', hfits.add hcharged hfits'⟩

/-- A panic of the parent ends a computation. -/
theorem Metered.bind_error {e : ε} (hx : Metered meter x p (.error e) p' c)
    (f : α → GasKvM ε σ β) :
    Metered meter (x >>= f) p (.error e) p' c := by
  intro g
  rcases hx g with ⟨e', s', hrun, hpast⟩ | ⟨g', hrun, hcharged, hfits⟩
  · exact .inl ⟨e', s', outcome_bind_error hrun, hpast⟩
  · exact .inr ⟨g', outcome_bind_error hrun, hcharged, hfits⟩

/-- A computation followed by a function of what it returns. -/
theorem Metered.map (hx : Metered meter x p r p' c) (f : α → β) :
    Metered meter (x >>= fun a => pure (f a)) p (r.map f) p' c := by
  cases r with
  | ok a => exact hx.bind (f := fun a => pure (f a)) (metered_pure (f a) p')
  | error e => exact hx.bind_error _

/-- A computation that only charges, followed by a call of the parent. -/
theorem Metered.bind_onParent {x : GasKvM ε σ Unit}
    (hx : Metered meter x p (.ok ()) p c) (y : EStateM ε σ β) :
    Metered meter (x >>= fun _ => GasKv.onParent y) p (outcome y p).1 (outcome y p).2 c :=
  hx.bind (f := fun _ => GasKv.onParent y) (metered_onParent rfl)

/-- A check costs nothing. -/
theorem metered_validate {x : Except Panic Unit} (h : x = .ok ()) (p : σ) :
    Metered meter (GasKv.validate x : GasKvM ε σ Unit) p (.ok ()) p
      0 := by
  rw [h]
  exact metered_pure () p

end Metered

/-! ### The calls and their costs -/

/-- No product of a cost per byte with a length within the limits overflows. -/
structure GasConfig.Small (cfg : GasConfig) : Prop where
  read_lt : cfg.readCostPerByte.toNat * maxValueLength < 2 ^ 64
  write_lt : cfg.writeCostPerByte.toNat * maxValueLength < 2 ^ 64

/-- The configurations of the repository are small. -/
theorem small_of_mem {cfg : GasConfig} (h : cfg ∈ [kvGasConfig, transientGasConfig]) :
    cfg.Small := by
  rcases List.mem_cons.mp h with rfl | h
  · exact ⟨by decide, by decide⟩
  · obtain rfl := List.mem_singleton.mp h
    exact ⟨by decide, by decide⟩

theorem maxKeyLength_le : maxKeyLength ≤ maxValueLength := by decide

/-- A cost per byte does not overflow. -/
theorem toNat_perByte {cost : Gas} {n : ℕ} (hcost : cost.toNat * maxValueLength < 2 ^ 64)
    (hn : n ≤ maxValueLength) : (cost * UInt64.ofNat n).toNat = cost.toNat * n := by
  have hmax : maxValueLength < 2 ^ 64 := by decide
  have hle : cost.toNat * n ≤ cost.toNat * maxValueLength := Nat.mul_le_mul_left _ hn
  rw [UInt64.toNat_mul, UInt64.toNat_ofNat_of_lt' (hn.trans_lt hmax),
    Nat.mod_eq_of_lt (hle.trans_lt hcost)]

section Perform

variable {σ ι ε : Type} (P : ParentStore σ ι ε) {cfg : GasConfig} {meter : GasMeterKind} {p : σ}
  {cost : Gas} {n : ℕ}

/-- A charge for each byte of a value. -/
theorem metered_perByte (hcost : cost.toNat * maxValueLength < 2 ^ 64) (hn : n ≤ maxValueLength)
    (descriptor : String) (p : σ) :
    Metered meter (GasKv.consumeGas meter (cost * UInt64.ofNat n) descriptor :
      GasKvM ε σ Unit) p (.ok ()) p (cost.toNat * n) := by
  rw [← toNat_perByte hcost hn]
  exact metered_consumeGas _ descriptor p

/-- The two costs per byte of a key and a value. -/
theorem metered_perByte_pair {m : ℕ} (hcost : cost.toNat * maxValueLength < 2 ^ 64)
    (hm : m ≤ maxKeyLength) (hn : n ≤ maxValueLength) (descriptor : String) (p : σ) :
    Metered meter (do
      GasKv.consumeGas meter (cost * UInt64.ofNat m) descriptor
      GasKv.consumeGas meter (cost * UInt64.ofNat n) descriptor :
      GasKvM ε σ Unit) p (.ok ()) p (cost.toNat * (m + n)) := by
  rw [Nat.mul_add]
  exact (metered_perByte hcost (hm.trans maxKeyLength_le) descriptor p).bind
    (metered_perByte hcost hn descriptor p)

section

variable (hcfg : cfg.Small) {key : Bytes}
include hcfg

/-- What the pair of an iterator costs. -/
theorem metered_consumeSeekGas {i : ι} (h : ParentStore.PairFits (P.current p i)) :
    Metered meter (GasKv.consumeSeekGas P cfg meter i) p (.ok ()) p
      (cfg.seekCost (P.current p i)) := by
  have hpair : Metered meter (GasKv.consumePair cfg meter (P.current p i) :
      GasKvM ε σ Unit) p (.ok ()) p
      ((P.current p i).elim 0 cfg.pairCost) := by
    cases hcurrent : P.current p i with
    | none => exact metered_pure () p
    | some pair =>
      obtain ⟨hkey, hvalue⟩ := h pair hcurrent
      exact metered_perByte_pair hcfg.read_lt hkey hvalue _ p
  have hread : Metered meter (GasKv.onParent (P.pair i)) p (.ok (P.current p i)) p 0 :=
    metered_onParent (outcome_reading _ p)
  have hrun := hread.bind (f := fun pair => do
    GasKv.consumePair cfg meter pair
    GasKv.consumeGas meter cfg.iterNextCostFlat "IterNextFlat")
    (hpair.bind (metered_consumeGas cfg.iterNextCostFlat "IterNextFlat" p))
  rwa [Nat.zero_add] at hrun

/-- What a `Get` costs. -/
theorem metered_get (h : P.Fits p (.get key)) :
    Metered meter (GasKv.get P cfg meter key) p (outcome (P.get key) p).1 (outcome (P.get key) p).2
      (P.callCost cfg p (.get key)) := by
  obtain ⟨hkey, hvalue⟩ := h
  rw [ParentStore.callCost]
  refine (metered_consumeGas cfg.readCostFlat "ReadFlat" p).bind ?_
  cases hout : outcome (P.get key) p with
  | mk r p' =>
    rw [hout] at hvalue
    cases r with
    | error e => exact (metered_onParent hout).bind_error _
    | ok value =>
      have hcost : cfg.readCostPerByte.toNat * (key.length + (value.getD []).length) =
          0 + (cfg.readCostPerByte.toNat * key.length +
            (cfg.readCostPerByte.toNat * (value.getD []).length + 0)) := by
        rw [Nat.mul_add, Nat.zero_add, Nat.add_zero]
      dsimp only
      rw [hcost]
      refine (metered_onParent hout).bind ?_
      refine (metered_perByte hcfg.read_lt (hkey.trans maxKeyLength_le) _ p').bind ?_
      refine (metered_perByte hcfg.read_lt (hvalue value rfl) _ p').bind ?_
      exact metered_pure value p'

/-- What a `Set` costs. -/
theorem metered_set {value : Slice} (h : P.Fits p (.set key value)) :
    Metered meter (GasKv.set P cfg meter key value) p (outcome (P.set key value) p).1
      (outcome (P.set key value) p).2 (P.callCost cfg p (.set key value)) := by
  obtain ⟨hkey, hvalue⟩ := h
  obtain ⟨v, rfl, hv⟩ := hvalue
  have hcharge : Metered meter (GasKv.chargeSet cfg meter key (some v) :
      GasKvM ε σ Unit) p (.ok ()) p
      (0 + (0 + P.callCost cfg p (.set key (some v)))) := by
    refine (metered_validate (assertValidKey_eq_ok.mpr hkey) p).bind ?_
    refine (metered_validate (assertValidValue_eq_ok.mpr ⟨v, rfl, hv⟩) p).bind ?_
    refine (metered_consumeGas cfg.writeCostFlat "WriteFlat" p).bind ?_
    exact metered_perByte_pair hcfg.write_lt hkey.2 hv _ p
  rw [Nat.zero_add, Nat.zero_add] at hcharge
  exact hcharge.bind_onParent _

/-- What an iterator costs to make. -/
theorem metered_iterator {start stop : Slice} {ascending : Bool}
    (h : P.Fits p (.iterator start stop ascending)) :
    Metered meter (GasKv.iterator P cfg meter start stop ascending) p
      (outcome (P.iterate start stop ascending) p).1 (outcome (P.iterate start stop ascending) p).2
      (P.callCost cfg p (.iterator start stop ascending)) := by
  have hfits : ∀ i p', outcome (P.iterate start stop ascending) p = (.ok i, p') →
      ParentStore.PairFits (P.current p' i) := h
  rw [ParentStore.callCost]
  cases hout : outcome (P.iterate start stop ascending) p with
  | mk r p' =>
    cases r with
    | error e => exact (metered_onParent hout).bind_error _
    | ok i =>
      have hcost : cfg.seekCost (P.current p' i) = 0 + (cfg.seekCost (P.current p' i) + 0) := by
        rw [Nat.zero_add, Nat.add_zero]
      dsimp only
      rw [hcost]
      refine (metered_onParent hout).bind ?_
      refine (metered_consumeSeekGas P hcfg (hfits i p' hout)).bind ?_
      exact metered_pure i p'

/-- **A call of a metered store is the call of its parent**, at the cost of the call. -/
theorem metered_perform {call : KVCall ι} (h : P.Fits p call) :
    Metered meter (GasKv.perform P cfg meter call) p (outcome (P.perform call) p).1
      (outcome (P.perform call) p).2 (P.callCost cfg p call) := by
  cases call with
  | get key =>
    rw [ParentStore.perform, outcome_bind_pure]
    exact (metered_get P hcfg h).map _
  | set key value =>
    rw [ParentStore.perform, outcome_bind_pure]
    exact (metered_set P hcfg h).map _
  | has key =>
    rw [ParentStore.perform, outcome_bind_pure]
    exact ((metered_consumeGas cfg.hasCost "Has" p).bind_onParent (P.has key)).map _
  | delete key =>
    rw [ParentStore.perform, outcome_bind_pure]
    exact ((metered_consumeGas cfg.deleteCost "Delete" p).bind_onParent (P.delete key)).map _
  | iterator start stop ascending =>
    rw [ParentStore.perform, outcome_bind_pure]
    exact (metered_iterator P hcfg h).map _
  | next i =>
    rw [ParentStore.perform, outcome_bind_pure]
    exact ((metered_consumeSeekGas P hcfg h).bind_onParent (P.next i)).map _
  | pair i =>
    rw [ParentStore.perform, outcome_bind_pure]
    exact (metered_onParent rfl).map _

end

end Perform

end MelodiaStore
