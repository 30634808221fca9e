import Mathlib.Algebra.Order.BigOperators.Group.Finset
import MelodiaStore.GasMeter
import MelodiaStore.Interleaving

/-!
# Gas Meters and Concurrent Clients

Clients that call `ConsumeGas` of one meter at the same time, in one namespace. A call of the
`sync.Map`, an operation of an atomic counter and an operation of the mutex are one step each, and
between two steps of a client the others may take any number of theirs.

`getConsumed` looks for the counter of the namespace and, when there is none, takes the mutex and
stores a new one. It does not look again once it has the mutex: a counter that was stored in the
meantime is replaced, and what was added to it is lost.

## Main results

* `consumeGas_refines`: a call during which the others wait is the call of the sequential model.
* `noGasLost_iff`: nothing is lost in any interleaving if and only if the namespace has a counter
  from the start, or every amount is zero, or no two clients have a call to make.
* `noGasLost_fails`: two clients, and a namespace that is used for the first time.
-/

namespace MelodiaStore

open Interleaving.Run (invariant solo_of_eq)

open Function (comp_update forall_update_iff update update_of_ne update_self)

/-! ### The clients and their steps -/

/-- A value of the map `consumed`: a pointer to a counter, or a `Gas`. -/
inductive GasEntry
  | counter (ref : ℕ)
  | gas (n : Gas)
  deriving DecidableEq

/-- What the clients share: the value of the map for their namespace, the counters that were made,
in the order in which they were made, and the mutex. -/
structure GasShared where
  consumed : Option GasEntry
  counters : List Gas
  lock : Bool

namespace GasShared

/-- A namespace that was not used, or that has a counter. -/
def start : Option Gas → GasShared
  | none => ⟨none, [], false⟩
  | some n => ⟨some (.counter 0), [n], false⟩

/-- `Load` of a counter. -/
def load (s : GasShared) (ref : ℕ) : Gas := s.counters.getD ref 0

/-- `Add` of a counter. -/
def add (s : GasShared) (ref : ℕ) (amount : Gas) : GasShared :=
  { s with counters := s.counters.modify ref (· + amount) }

/-- `g.consumed.Store(g.namespaceId, new(atomic.Uint64))`. -/
def storeCounter (s : GasShared) : GasShared :=
  { s with consumed := some (.counter s.counters.length), counters := s.counters ++ [0] }

/-- `g.consumed.Store(g.namespaceId, Gas(math.MaxUint64))`. -/
def storeGas (s : GasShared) : GasShared :=
  { s with consumed := some (.gas maxUint64) }

/-- What a `GasConsumed` that nobody disturbs returns. -/
def count (s : GasShared) : Except GasPanic Gas :=
  match s.consumed with
  | none => .ok 0
  | some (.counter ref) => .ok (s.load ref)
  | some (.gas _) => .error .typeAssertion

end GasShared

/-- The two meters. -/
inductive GasMeterKind
  | basic (limit : Gas)
  | infinite

/-- `ConsumeGas` of the sequential model. -/
def GasMeterKind.consumeGas : GasMeterKind → Gas → String → EStateM GasPanic GasCounters Unit
  | basic limit => BasicGasMeter.consumeGas limit
  | infinite => InfiniteGasMeter.consumeGas

/-- What a `getConsumed` is made for. -/
inductive GasQuery
  /-- the test for an overflow, before the amount is added -/
  | overflow (amount : Gas)
  /-- the test for the limit, after it -/
  | limit

/-- Where a client is in its calls of `ConsumeGas`: `calls` are the amounts of the calls that it
has not begun. -/
inductive GasClient
  /-- between two calls -/
  | idle (calls : List Gas)
  /-- before the `Load` of `getConsumed` -/
  | asking (query : GasQuery) (calls : List Gas)
  /-- it has found an entry -/
  | found (entry : GasEntry) (query : GasQuery) (calls : List Gas)
  /-- it has found none, and waits for the mutex -/
  | missed (query : GasQuery) (calls : List Gas)
  /-- before the `Store` of `getConsumed` -/
  | locked (query : GasQuery) (calls : List Gas)
  /-- before the deferred `Unlock` -/
  | unlocking (query : GasQuery) (calls : List Gas)
  /-- before the `Store` of a `basicGasMeter` that overflows -/
  | overflowing (calls : List Gas)
  /-- before the second `Load` of `ConsumeGas` -/
  | checked (amount : Gas) (calls : List Gas)
  /-- before the `Add` -/
  | adding (entry : GasEntry) (amount : Gas) (calls : List Gas)

namespace GasClient

/-- The amount overflows. The infinite meter panics at once. -/
def overflowed (calls : List Gas) : GasMeterKind → GasClient
  | .basic _ => overflowing calls
  | .infinite => idle calls

/-- `getConsumed` has returned `n`. The test for the limit ends the call, with a panic or
without one. -/
def answered (kind : GasMeterKind) (n : Gas) (calls : List Gas) : GasQuery → GasClient
  | .overflow amount =>
    if maxUint64 - n < amount then overflowed calls kind else checked amount calls
  | .limit => idle calls

/-- The amount has been added. -/
def added (calls : List Gas) : GasMeterKind → GasClient
  | .basic _ => asking .limit calls
  | .infinite => idle calls

/-- The steps of a client. A panic ends the call; the client recovers and goes on to the next. -/
inductive Step (kind : GasMeterKind) : GasClient × GasShared → GasClient × GasShared → Prop
  | begin {amount calls s} :
      Step kind (idle (amount :: calls), s) (asking (.overflow amount) calls, s)
  | find {query calls s entry} (h : s.consumed = some entry) :
      Step kind (asking query calls, s) (found entry query calls, s)
  | miss {query calls s} (h : s.consumed = none) :
      Step kind (asking query calls, s) (missed query calls, s)
  | load {query calls s ref} :
      Step kind (found (.counter ref) query calls, s) (answered kind (s.load ref) calls query, s)
  | loadPanics {query calls s n} : Step kind (found (.gas n) query calls, s) (idle calls, s)
  | lock {query calls s} (h : s.lock = false) :
      Step kind (missed query calls, s) (locked query calls, { s with lock := true })
  | store {query calls s} :
      Step kind (locked query calls, s) (unlocking query calls, s.storeCounter)
  | unlock {query calls s} :
      Step kind (unlocking query calls, s) (answered kind 0 calls query, { s with lock := false })
  | overflow {calls s} : Step kind (overflowing calls, s) (idle calls, s.storeGas)
  | findAgain {amount calls s entry} (h : s.consumed = some entry) :
      Step kind (checked amount calls, s) (adding entry amount calls, s)
  | missAgain {amount calls s} (h : s.consumed = none) :
      Step kind (checked amount calls, s) (added calls kind, s)
  | add {ref amount calls s} :
      Step kind (adding (.counter ref) amount calls, s) (added calls kind, s.add ref amount)
  | addPanics {n amount calls s} : Step kind (adding (.gas n) amount calls, s) (idle calls, s)

/-- What a client does alone. -/
abbrev Alone (kind : GasMeterKind) : GasClient × GasShared → GasClient × GasShared → Prop :=
  Relation.ReflTransGen (Step kind)

end GasClient

/-- The runs of the clients. -/
abbrev GasRun {ι : Type} [DecidableEq ι] (kind : GasMeterKind) :
    (ι → GasClient) × GasShared → (ι → GasClient) × GasShared → Prop :=
  Interleaving.Run fun _ => GasClient.Step kind

/-! ### The shared state -/

namespace GasShared

variable {s s' : GasShared} {n : Gas} {ref : ℕ}

/-- The pointer of the map points to a counter. -/
def InRange (s : GasShared) : Prop :=
  ∀ ref, s.consumed = some (.counter ref) → ref < s.counters.length

theorem count_of_none (h : s.consumed = none) : s.count = .ok 0 := by
  simp only [count, h]

theorem count_of_counter (h : s.consumed = some (.counter ref)) : s.count = .ok (s.load ref) := by
  simp only [count, h]

theorem count_of_gas (h : s.consumed = some (.gas n)) : s.count = .error .typeAssertion := by
  simp only [count, h]

/-- Where the map has an entry and can be read, the entry is a counter. -/
theorem exists_counter {entry : GasEntry} (h : s.count = .ok n) (hentry : s.consumed = some entry) :
    ∃ ref, entry = .counter ref ∧ s.load ref = n := by
  cases entry with
  | counter ref => exact ⟨ref, rfl, Except.ok.inj ((count_of_counter hentry).symm.trans h)⟩
  | gas m => cases (count_of_gas hentry).symm.trans h

theorem exists_gas {e : GasPanic} (h : s.count = .error e) : ∃ n, s.consumed = some (.gas n) := by
  cases hconsumed : s.consumed with
  | none => cases (count_of_none hconsumed).symm.trans h
  | some entry =>
    cases entry with
    | counter ref => cases (count_of_counter hconsumed).symm.trans h
    | gas n => exact ⟨n, rfl⟩

/-- What is loaded after an addition. -/
theorem load_add (h : ref < s.counters.length) (amount : Gas) :
    (s.add ref amount).load ref = s.load ref + amount := by
  simp [load, add, h]

theorem inRange_add (h : s.InRange) (ref : ℕ) (amount : Gas) : (s.add ref amount).InRange := by
  intro r hr
  rw [add, List.length_modify]
  exact h r hr

theorem inRange_storeCounter (s : GasShared) : s.storeCounter.InRange := by
  intro r hr
  obtain rfl := GasEntry.counter.inj (Option.some.inj hr)
  rw [storeCounter, List.length_append]
  exact Nat.lt_succ_self _

theorem count_storeCounter (s : GasShared) : s.storeCounter.count = .ok 0 := by
  rw [count_of_counter rfl, load, storeCounter]
  simp

/-- Nobody is in a call, and `GasConsumed` returns `n`. -/
structure Ready (s : GasShared) (n : Gas) : Prop where
  count : s.count = .ok n
  unlocked : s.lock = false
  inRange : s.InRange

/-- The start. -/
theorem ready_start (counter : Option Gas) : (start counter).Ready (counter.getD 0) := by
  cases counter with
  | none => exact ⟨rfl, rfl, fun _ h => by cases h⟩
  | some n =>
    refine ⟨rfl, rfl, fun ref h => ?_⟩
    obtain rfl := GasEntry.counter.inj (Option.some.inj h)
    exact Nat.zero_lt_one

end GasShared

/-! ### The sequential model -/

namespace GasMeterKind

open GasCounters

variable {g : GasCounters} {n amount : Gas}

/-- What there is to count after an overflow. -/
def countAfterOverflow (n : Gas) : GasMeterKind → Except GasPanic Gas
  | basic _ => .error .typeAssertion
  | infinite => .ok n

/-- What is counted after a charge. -/
theorem count_consumeGas (kind : GasMeterKind) (h : g.count g.namespaceId = .ok n)
    (hfits : n.toNat + amount.toNat < 2 ^ 64) (descriptor : String) :
    (outcome (kind.consumeGas amount descriptor) g).2.count g.namespaceId = .ok (n + amount) := by
  cases kind with
  | basic limit =>
    obtain ⟨g', hcall, -, hcount⟩ := BasicGasMeter.outcome_consumeGas h hfits limit descriptor
    rw [consumeGas, hcall, hcount, if_pos rfl]
  | infinite =>
    obtain ⟨g', hcall, -, hcount⟩ := InfiniteGasMeter.outcome_consumeGas h hfits descriptor
    rw [consumeGas, hcall, hcount, if_pos rfl]

/-- A charge that overflows panics. -/
theorem outcome_consumeGas_of_overflow (kind : GasMeterKind) (h : g.count g.namespaceId = .ok n)
    (hoverflow : 2 ^ 64 ≤ n.toNat + amount.toNat) (descriptor : String) :
    ∃ g', outcome (kind.consumeGas amount descriptor) g = (.error (.gasOverflow descriptor), g') ∧
      g'.count g.namespaceId = kind.countAfterOverflow n := by
  cases kind with
  | basic limit =>
    obtain ⟨g', hcall, -, hcount⟩ :=
      BasicGasMeter.outcome_consumeGas_of_overflow h hoverflow limit descriptor
    exact ⟨g', hcall, hcount⟩
  | infinite =>
    obtain ⟨g', hcall, -, hcount⟩ :=
      InfiniteGasMeter.outcome_consumeGas_of_overflow h hoverflow descriptor
    exact ⟨g', hcall, (hcount _).trans h⟩

/-- A counter that cannot be read. -/
theorem outcome_consumeGas_of_error (kind : GasMeterKind) {e : GasPanic}
    (h : g.count g.namespaceId = .error e) (descriptor : String) :
    outcome (kind.consumeGas amount descriptor) g = (.error e, g) := by
  have hget := outcome_getConsumed_of_error h
  cases kind with
  | basic limit => rw [consumeGas, BasicGasMeter.consumeGas, outcome_bind_error hget]
  | infinite => rw [consumeGas, InfiniteGasMeter.consumeGas, outcome_bind_error hget]

end GasMeterKind

/-! ### A client alone -/

namespace GasClient

open GasShared

variable (kind : GasMeterKind) {s : GasShared} {n amount : Gas}

theorem answered_of_fits (h : n.toNat + amount.toNat < 2 ^ 64) (calls : List Gas) :
    answered kind n calls (.overflow amount) = checked amount calls := by
  rw [answered, if_neg (by rw [GasCounters.overflow_iff]; omega)]

/-- From the miss on, `getConsumed` puts a new counter in the place of whatever the map has. -/
theorem alone_missed (hlock : s.lock = false) (query : GasQuery) (calls : List Gas) :
    ∃ s' ref, Alone kind (missed query calls, s) (answered kind 0 calls query, s') ∧
      s'.Ready 0 ∧ s'.consumed = some (.counter ref) := by
  let s₁ : GasShared := { s with lock := true }
  refine ⟨{ s₁.storeCounter with lock := false }, s₁.counters.length, ?_, ⟨?_, rfl, ?_⟩, rfl⟩
  · exact ((Relation.ReflTransGen.single (.lock hlock)).tail .store).tail .unlock
  · exact count_storeCounter s₁
  · exact inRange_storeCounter s₁

/-- **`getConsumed` alone** returns the count, and there is a counter then. -/
theorem alone_getConsumed (h : s.Ready n) (query : GasQuery) (calls : List Gas) :
    ∃ s' ref, Alone kind (asking query calls, s) (answered kind n calls query, s') ∧
      s'.Ready n ∧ s'.consumed = some (.counter ref) := by
  cases hconsumed : s.consumed with
  | none =>
    obtain rfl := Except.ok.inj ((count_of_none hconsumed).symm.trans h.count)
    obtain ⟨s', ref, hrun, hready, href⟩ := alone_missed kind h.unlocked query calls
    exact ⟨s', ref, .head (.miss hconsumed) hrun, hready, href⟩
  | some entry =>
    obtain ⟨ref, rfl, rfl⟩ := exists_counter h.count hconsumed
    exact ⟨s, ref, (Relation.ReflTransGen.single (.find hconsumed)).tail .load, h, hconsumed⟩

/-- The rest of a call of which the amount was found not to overflow. -/
theorem alone_checked (h : s.Ready n) {ref : ℕ} (href : s.consumed = some (.counter ref))
    (amount : Gas) (calls : List Gas) :
    ∃ s', Alone kind (checked amount calls, s) (idle calls, s') ∧ s'.Ready (n + amount) := by
  obtain ⟨r, hr, hn⟩ := exists_counter h.count href
  obtain rfl := GasEntry.counter.inj hr
  have hadded : (s.add ref amount).Ready (n + amount) := by
    refine ⟨?_, h.unlocked, inRange_add h.inRange ref amount⟩
    rw [count_of_counter (s := s.add ref amount) href, load_add (h.inRange ref href), hn]
  have hrun : Alone kind (checked amount calls, s) (added calls kind, s.add ref amount) :=
    (Relation.ReflTransGen.single (.findAgain href)).tail .add
  cases kind with
  | basic limit =>
    obtain ⟨s', -, hget, hready, -⟩ := alone_getConsumed (.basic limit) hadded .limit calls
    exact ⟨s', hrun.trans hget, hready⟩
  | infinite => exact ⟨_, hrun, hadded⟩

/-- **`ConsumeGas` alone** adds the amount. -/
theorem alone_consumeGas (h : s.Ready n) (amount : Gas)
    (hfits : n.toNat + amount.toNat < 2 ^ 64) (calls : List Gas) :
    ∃ s', Alone kind (idle (amount :: calls), s) (idle calls, s') ∧ s'.Ready (n + amount) := by
  obtain ⟨s₁, ref, hget, hready₁, href⟩ := alone_getConsumed kind h (.overflow amount) calls
  rw [answered_of_fits kind hfits] at hget
  obtain ⟨s', hrun, hready⟩ := alone_checked kind hready₁ href amount calls
  exact ⟨s', .head .begin (hget.trans hrun), hready⟩

/-- A call that overflows: the basic meter stores a plain number, the infinite one does
nothing. -/
theorem alone_consumeGas_of_overflow (h : s.Ready n) (amount : Gas)
    (hoverflow : 2 ^ 64 ≤ n.toNat + amount.toNat) (calls : List Gas) :
    ∃ s', Alone kind (idle (amount :: calls), s) (idle calls, s') ∧ s'.lock = false ∧
      s'.InRange ∧ s'.count = kind.countAfterOverflow n := by
  obtain ⟨s₁, ref, hget, hready, href⟩ := alone_getConsumed kind h (.overflow amount) calls
  rw [answered, if_pos ((GasCounters.overflow_iff n amount).mpr hoverflow)] at hget
  have hrun := hget.head .begin
  cases kind with
  | basic limit =>
    refine ⟨s₁.storeGas, hrun.tail .overflow, hready.unlocked, fun ref h => ?_, rfl⟩
    cases h
  | infinite => exact ⟨s₁, hrun, hready.unlocked, hready.inRange, hready.count⟩

/-- **A call during which the others wait** leaves the count that the sequential model has. -/
theorem consumeGas_refines {g : GasCounters} (hlock : s.lock = false) (hrange : s.InRange)
    (h : g.count g.namespaceId = s.count) (amount : Gas) (descriptor : String)
    (calls : List Gas) :
    ∃ s', Alone kind (idle (amount :: calls), s) (idle calls, s') ∧ s'.lock = false ∧
      s'.InRange ∧
      (outcome (kind.consumeGas amount descriptor) g).2.count g.namespaceId = s'.count := by
  cases hcount : s.count with
  | error e =>
    rw [hcount] at h
    obtain ⟨m, hgas⟩ := exists_gas hcount
    refine ⟨s, ?_, hlock, hrange, ?_⟩
    · exact ((Relation.ReflTransGen.single .begin).tail (.find hgas)).tail .loadPanics
    · rw [kind.outcome_consumeGas_of_error h, h, hcount]
  | ok n =>
    rw [hcount] at h
    by_cases hfits : n.toNat + amount.toNat < 2 ^ 64
    · obtain ⟨s', hrun, hready⟩ :=
        alone_consumeGas kind ⟨hcount, hlock, hrange⟩ amount hfits calls
      refine ⟨s', hrun, hready.unlocked, hready.inRange, ?_⟩
      rw [kind.count_consumeGas h hfits, hready.count]
    · obtain ⟨s', hrun, hlock', hrange', hcount'⟩ := alone_consumeGas_of_overflow kind
        ⟨hcount, hlock, hrange⟩ amount (Nat.not_lt.mp hfits) calls
      obtain ⟨_, hcall, hafter⟩ :=
        kind.outcome_consumeGas_of_overflow h (Nat.not_lt.mp hfits) descriptor
      refine ⟨s', hrun, hlock', hrange', ?_⟩
      rw [hcall, hafter, hcount']

/-- Five units of gas, in a namespace that was not used. -/
theorem consumeGas_refines_of_five : ∃ s',
    Alone .infinite (idle [5], .start none) (idle [], s') ∧
      (outcome (GasMeterKind.infinite.consumeGas 5 "read") .newGasMeter).2.count 0 = s'.count := by
  obtain ⟨s', hrun, -, -, hcount⟩ := consumeGas_refines .infinite (s := .start none)
    (g := .newGasMeter) rfl (fun _ h => by cases h) rfl 5 "read" []
  exact ⟨s', hrun, hcount⟩

/-- The amounts of a client's calls, added up. -/
def total (calls : List Gas) : ℕ := (calls.map UInt64.toNat).sum

theorem total_cons (amount : Gas) (calls : List Gas) :
    total (amount :: calls) = amount.toNat + total calls := rfl

/-- All the calls of a client, one after the other. -/
theorem alone_calls (calls : List Gas) (h : s.Ready n) (hfits : n.toNat + total calls < 2 ^ 64) :
    ∃ s' n', Alone kind (idle calls, s) (idle [], s') ∧ s'.Ready n' ∧
      n'.toNat = n.toNat + total calls := by
  induction calls generalizing s n with
  | nil => exact ⟨s, n, .refl, h, rfl⟩
  | cons amount calls ih =>
    rw [total_cons] at hfits ⊢
    obtain ⟨s₁, hcall, hready₁⟩ := alone_consumeGas kind h amount (by omega) calls
    have hsum : (n + amount).toNat = n.toNat + amount.toNat :=
      GasCounters.toNat_add_of_fits (by omega)
    obtain ⟨s', n', hrun, hready, hn'⟩ := ih hready₁ (by omega)
    exact ⟨s', n', hcall.trans hrun, hready, by omega⟩

end GasClient

/-! ### Where nothing is lost -/

/-- What a `getConsumed` still has to be added. -/
def GasQuery.pending : GasQuery → ℕ
  | overflow amount => amount.toNat
  | limit => 0

namespace GasClient

open GasShared

variable {kind : GasMeterKind} {client client' : GasClient} {s s' : GasShared} {n : Gas} {sum : ℕ}
  {c c' : GasClient × GasShared} {query : GasQuery}

/-- What a client has still to add. -/
def pending : GasClient → ℕ
  | idle calls => total calls
  | asking query calls => query.pending + total calls
  | found _ query calls => query.pending + total calls
  | missed query calls => query.pending + total calls
  | locked query calls => query.pending + total calls
  | unlocking query calls => query.pending + total calls
  | overflowing calls => total calls
  | checked amount calls => amount.toNat + total calls
  | adding _ amount calls => amount.toNat + total calls

/-- What a client knows of the map is so: an entry that it has found is there, there is none if it
is about to store one, and there is one once it has asked. -/
def Sound (consumed : Option GasEntry) : GasClient → Prop
  | idle _ => True
  | asking _ _ => True
  | found entry _ _ => consumed = some entry
  | missed _ _ => consumed = none
  | locked _ _ => consumed = none
  | unlocking _ _ => consumed ≠ none
  | overflowing _ => False
  | checked _ _ => consumed ≠ none
  | adding entry _ _ => consumed = some entry

/-- An answer keeps what is pending. -/
theorem pending_answered (h : n.toNat + query.pending < 2 ^ 64) (calls : List Gas) :
    (answered kind n calls query).pending = query.pending + total calls := by
  cases query with
  | overflow amount => rw [answered_of_fits kind h, pending, GasQuery.pending]
  | limit => rw [answered, pending, GasQuery.pending, Nat.zero_add]

/-- An answer keeps a goroutine sound. -/
theorem sound_answered {consumed : Option GasEntry} (h : n.toNat + query.pending < 2 ^ 64)
    (hconsumed : consumed ≠ none) (calls : List Gas) :
    (answered kind n calls query).Sound consumed := by
  cases query with
  | overflow amount =>
    rw [answered_of_fits kind h]
    exact hconsumed
  | limit => trivial

theorem pending_added (calls : List Gas) : (added calls kind).pending = total calls := by
  cases kind with
  | basic limit => exact Nat.zero_add _
  | infinite => rfl

theorem sound_added (consumed : Option GasEntry) (calls : List Gas) :
    (added calls kind).Sound consumed := by
  cases kind with
  | basic limit => trivial
  | infinite => trivial

/-- One client and what it shares: what was added and what it has still to add are `sum`. -/
structure Exact (c : GasClient × GasShared) (sum : ℕ) : Prop where
  sound : c.1.Sound c.2.consumed
  inRange : c.2.InRange
  count : ∃ n, c.2.count = .ok n ∧ n.toNat + c.1.pending = sum

/-- A step that leaves the counters. -/
theorem Exact.move (h : Exact (client, s) sum) (hconsumed : s'.consumed = s.consumed)
    (hcounters : s'.counters = s.counters) (hpending : client'.pending = client.pending)
    (hsound : client'.Sound s.consumed) : Exact (client', s') sum := by
  obtain ⟨n, hn, hsum⟩ := h.count
  refine ⟨hconsumed ▸ hsound, ?_, n, ?_, hpending ▸ hsum⟩
  · simp only [InRange, hconsumed, hcounters]
    exact h.inRange
  · simp only [GasShared.count, load, hconsumed, hcounters]
    exact hn

/-- **The step lemma.** -/
theorem Exact.step (h : Exact c sum) (hsum : sum < 2 ^ 64) (hstep : Step kind c c') :
    Exact c' sum := by
  obtain ⟨n, hn, hpending⟩ := h.count
  cases hstep with
  | begin => exact h.move rfl rfl rfl trivial
  | find hentry => exact h.move rfl rfl rfl hentry
  | miss hnone => exact h.move rfl rfl rfl hnone
  | @load query calls s ref =>
    have hentry : s.consumed = some (.counter ref) := h.sound
    obtain rfl := Except.ok.inj ((count_of_counter hentry).symm.trans hn)
    have hfits : (s.load ref).toNat + query.pending < 2 ^ 64 := by
      rw [pending] at hpending
      omega
    refine h.move rfl rfl (pending_answered hfits calls) (sound_answered hfits ?_ calls)
    rw [hentry]
    exact Option.some_ne_none _
  | loadPanics => cases (count_of_gas h.sound).symm.trans hn
  | lock _ => exact h.move rfl rfl rfl h.sound
  | @store query calls s =>
    obtain rfl := Except.ok.inj ((count_of_none h.sound).symm.trans hn)
    exact ⟨Option.some_ne_none _, inRange_storeCounter s, 0, count_storeCounter s, hpending⟩
  | @unlock query calls s =>
    have hfits : (0 : Gas).toNat + query.pending < 2 ^ 64 := by
      rw [pending] at hpending
      rw [UInt64.toNat_zero]
      omega
    exact h.move rfl rfl (pending_answered hfits calls) (sound_answered hfits h.sound calls)
  | overflow => exact h.sound.elim
  | findAgain hentry => exact h.move rfl rfl rfl hentry
  | missAgain hnone => exact absurd hnone h.sound
  | @add ref amount calls s =>
    have hentry : s.consumed = some (.counter ref) := h.sound
    obtain rfl := Except.ok.inj ((count_of_counter hentry).symm.trans hn)
    refine ⟨sound_added _ calls, inRange_add h.inRange ref amount, s.load ref + amount, ?_, ?_⟩
    · rw [count_of_counter (s := s.add ref amount) hentry, load_add (h.inRange ref hentry)]
    · rw [pending] at hpending
      rw [pending_added, GasCounters.toNat_add_of_fits (by omega)]
      omega
  | addPanics => cases (count_of_gas h.sound).symm.trans hn

/-- Only a map without an entry gets another one. -/
theorem Exact.consumed_of_step (h : Exact c sum) (hstep : Step kind c c') :
    c'.2.consumed = c.2.consumed ∨ c.2.consumed = none := by
  cases hstep with
  | store => exact .inr h.sound
  | overflow => exact h.sound.elim
  | _ => exact .inl rfl

/-- A client that has calls to make, or to finish. -/
def Busy (client : GasClient) : Prop := client ≠ idle []

/-- Only a busy goroutine steps. -/
theorem Step.busy (h : Step kind c c') : c.1.Busy := by
  cases h <;> exact fun hidle => by cases hidle

end GasClient

section Interleavings

variable {ι : Type} [Fintype ι] {kind : GasMeterKind} {s : GasShared} {calls : List Gas}
  {locals : ι → GasClient}

/-- **The invariant.** What was added and what the clients have still to add are `sum`; and while
the map has no entry, at most one client is busy. -/
structure NoGasLost (sum : ℕ) (c : (ι → GasClient) × GasShared) : Prop where
  sound : ∀ i, (c.1 i).Sound c.2.consumed
  inRange : c.2.InRange
  count : ∃ n, c.2.count = .ok n ∧ n.toNat + ∑ i, (c.1 i).pending = sum
  alone : c.2.consumed = none → ∀ i j, (c.1 i).Busy → (c.1 j).Busy → i = j

namespace NoGasLost

variable {sum : ℕ}

/-- One step loses no gas. -/
theorem step [DecidableEq ι] (hsum : sum < 2 ^ 64) (c c' : (ι → GasClient) × GasShared)
    (h : NoGasLost sum c) (hstep : Interleaving.Step (fun _ => GasClient.Step kind) c c') :
    NoGasLost sum c' := by
  cases hstep with
  | @of i locals s s' client hstep =>
    obtain ⟨n, hn, hcount⟩ := h.count
    dsimp only at hcount
    have hle : (locals i).pending ≤ ∑ j, (locals j).pending :=
      Finset.single_le_sum (f := fun j => (locals j).pending) (fun _ _ => Nat.zero_le _)
        (Finset.mem_univ i)
    have hexact : GasClient.Exact (locals i, s) (n.toNat + (locals i).pending) :=
      ⟨h.sound i, h.inRange, n, hn, rfl⟩
    have hexact' := hexact.step (by omega) hstep
    obtain ⟨n', hn', hcount'⟩ := hexact'.count
    have hupdate := Interleaving.sum_update GasClient.pending locals i client
    have hconsumed := hexact.consumed_of_step hstep
    refine ⟨?_, hexact'.inRange, ⟨n', hn', by dsimp only at hcount' ⊢; omega⟩, ?_⟩
    · rw [forall_update_iff locals fun _ c => c.Sound s'.consumed]
      refine ⟨hexact'.sound, fun j hj => ?_⟩
      obtain hsame | hnone := hconsumed
      · exact hsame ▸ h.sound j
      · -- the others have nothing to do
        by_cases hbusy : (locals j).Busy
        · exact absurd (h.alone hnone j i hbusy hstep.busy) hj
        · rw [not_not.mp hbusy]
          trivial
    · intro hnone' j k hj hk
      have hnone : s.consumed = none := hconsumed.elim (fun hsame => hsame.symm.trans hnone') id
      have hbusy : ∀ l, (update locals i client l).Busy → (locals l).Busy := by
        rw [forall_update_iff locals fun l c => c.Busy → (locals l).Busy]
        exact ⟨fun _ => hstep.busy, fun _ _ => id⟩
      exact h.alone hnone j k (hbusy j hj) (hbusy k hk)

end NoGasLost

/-! ### Amounts that are zero -/

/-- No counter counts anything. -/
structure GasShared.Zero (s : GasShared) : Prop where
  counters : ∀ n ∈ s.counters, n = 0
  consumed : ∀ n, s.consumed ≠ some (.gas n)

theorem GasShared.Zero.load (h : s.Zero) (ref : ℕ) : s.load ref = 0 := by
  rw [GasShared.load, List.getD_eq_getElem?_getD]
  cases hget : s.counters[ref]? with
  | none => rfl
  | some n => exact h.counters n (List.mem_of_getElem? hget)

theorem GasShared.Zero.count (h : s.Zero) : s.count = .ok 0 := by
  cases hconsumed : s.consumed with
  | none => exact GasShared.count_of_none hconsumed
  | some entry =>
    cases entry with
    | counter ref => rw [GasShared.count_of_counter hconsumed, h.load]
    | gas n => exact absurd hconsumed (h.consumed n)

/-- A client with nothing to add, which does not overflow. -/
def GasClient.Zero : GasClient → Prop
  | overflowing _ => False
  | client => client.pending = 0

theorem GasClient.zero_answered {query : GasQuery} (h : query.pending + total calls = 0) :
    (answered kind 0 calls query).Zero := by
  obtain ⟨hquery, hcalls⟩ := Nat.add_eq_zero_iff.mp h
  cases query with
  | overflow amount =>
    rw [answered_of_fits kind (by rw [UInt64.toNat_zero, Nat.zero_add]; exact amount.toNat_lt)]
    exact h
  | limit => exact hcalls

theorem GasClient.zero_added (h : total calls = 0) : (added calls kind).Zero := by
  cases kind with
  | basic limit => exact Nat.add_eq_zero_iff.mpr ⟨rfl, h⟩
  | infinite => exact h

/-- A step of such a client. -/
theorem GasClient.Zero.step {c c' : GasClient × GasShared} (h : c.1.Zero) (hs : c.2.Zero)
    (hstep : GasClient.Step kind c c') : c'.1.Zero ∧ c'.2.Zero := by
  cases hstep with
  | begin | find | miss | findAgain => exact ⟨h, hs⟩
  | lock _ => exact ⟨h, hs.counters, hs.consumed⟩
  | @load query calls s ref =>
    rw [hs.load]
    exact ⟨zero_answered h, hs⟩
  | unlock => exact ⟨zero_answered h, hs.counters, hs.consumed⟩
  | loadPanics | addPanics => exact ⟨(Nat.add_eq_zero_iff.mp h).2, hs⟩
  | @store query calls s =>
    refine ⟨h, fun n hn => ?_, fun n hn => by cases hn⟩
    obtain hn | hn := List.mem_append.mp hn
    · exact hs.counters n hn
    · exact List.mem_singleton.mp hn
  | overflow => exact h.elim
  | missAgain => exact ⟨zero_added (Nat.add_eq_zero_iff.mp h).2, hs⟩
  | @add ref amount calls s =>
    obtain ⟨hamount, hcalls⟩ := Nat.add_eq_zero_iff.mp h
    obtain rfl : amount = 0 := UInt64.toNat_inj.mp hamount
    refine ⟨zero_added hcalls, fun n hn => ?_, hs.consumed⟩
    have hsame : s.counters.modify ref (· + 0) = s.counters := by
      simp only [UInt64.add_zero]
      exact List.modify_id ref s.counters
    rw [GasShared.add, hsame] at hn
    exact hs.counters n hn

/-! ### Runs -/

variable [DecidableEq ι] {progs : ι → List Gas} {counter : Option Gas} {a b : ι}

open GasClient (idle total)

/-- The clients before the first call. -/
def GasClient.ready (progs : ι → List Gas) : ι → GasClient := fun i => .idle (progs i)

/-- Once all calls have finished, whatever the interleaving, `GasConsumed` is what it was before
them and the sum of their amounts. -/
def GasAddsUp (kind : GasMeterKind) (counter : Option Gas) (progs : ι → List Gas) : Prop :=
  ∀ locals s, GasRun kind (GasClient.ready progs, .start counter) (locals, s) →
    (∀ i, locals i = .idle []) →
    s.count = .ok (UInt64.ofNat ((counter.getD 0).toNat + ∑ i, total (progs i)))

open GasClient (ready)

theorem GasClient.total_eq_zero_iff (calls : List Gas) :
    total calls = 0 ↔ ∀ amount ∈ calls, amount = 0 := by
  rw [total, List.sum_eq_zero_iff, List.forall_mem_map]
  exact forall₂_congr fun amount _ => UInt64.toNat_inj (b := 0)

omit [Fintype ι] in
/-- The clients make their calls one client after the other. -/
theorem GasRun.finish (kind : GasMeterKind) (progs : ι → List Gas) (clients : Finset ι) {n : Gas}
    (hidle : ∀ i ∈ clients, locals i = .idle (progs i)) (h : s.Ready n)
    (hfits : n.toNat + ∑ i ∈ clients, total (progs i) < 2 ^ 64) :
    ∃ locals' s' n', GasRun kind (locals, s) (locals', s') ∧ s'.Ready n' ∧
      (∀ i, locals' i = if i ∈ clients then .idle [] else locals i) ∧
      n'.toNat = n.toNat + ∑ i ∈ clients, total (progs i) := by
  induction clients using Finset.induction generalizing locals s n with
  | empty => exact ⟨locals, s, n, .refl, h, fun _ => rfl, rfl⟩
  | insert i clients hi ih =>
    rw [Finset.sum_insert hi] at hfits ⊢
    obtain ⟨s₁, n₁, hcalls, hready₁, hn₁⟩ :=
      GasClient.alone_calls kind (progs i) h (by omega)
    have hrun₁ := solo_of_eq (fun _ => GasClient.Step kind)
      (hidle i (Finset.mem_insert_self i clients)) hcalls
    have hidle₁ : ∀ j ∈ clients,
        update locals i (idle []) j = .idle (progs j) := by
      intro j hj
      rw [update_of_ne (ne_of_mem_of_not_mem hj hi)]
      exact hidle j (Finset.mem_insert_of_mem hj)
    obtain ⟨locals', s', n', hrun, hready, hlocals, hn'⟩ := ih hidle₁ hready₁ (by omega)
    refine ⟨locals', s', n', hrun₁.trans hrun, hready, fun j => ?_, by omega⟩
    rw [hlocals]
    by_cases hj : j = i
    · rw [hj, if_neg hi, if_pos (Finset.mem_insert_self i clients), update_self]
    · rw [update_of_ne hj]
      exact if_congr (by rw [Finset.mem_insert, or_iff_right hj]) rfl rfl

omit [Fintype ι] in
/-- **How gas is lost.** A client finds no counter; another one then makes all its calls; and the
counter that the first one stores replaces the one with their sum. -/
theorem GasRun.replaced (kind : GasMeterKind) (hab : a ≠ b) {amount : Gas}
    (hb : progs b = amount :: calls) (hfits : total (progs a) < 2 ^ 64) :
    ∃ s, s.Ready amount ∧ GasRun kind (ready progs, .start none)
      (ready (update (update progs a []) b calls), s) := by
  -- `b` finds no counter
  have hrun₁ : GasRun kind (ready progs, .start none)
      (update (ready progs) b (.missed (.overflow amount) calls), .start none) :=
    solo_of_eq _ (congrArg idle hb)
      ((Relation.ReflTransGen.single .begin).tail (.miss rfl))
  -- `a` makes its calls
  obtain ⟨s₂, n₂, hcalls, hready₂, -⟩ := GasClient.alone_calls kind (progs a)
    (GasShared.ready_start none) (by rwa [Option.getD_none, UInt64.toNat_zero, Nat.zero_add])
  have hrun₂ := hrun₁.trans
    (solo_of_eq _ (update_of_ne hab _ _) hcalls)
  -- `b` stores its counter, and finishes its call
  obtain ⟨s₃, ref, hget, hready₃, href⟩ :=
    GasClient.alone_missed kind hready₂.unlocked (.overflow amount) calls
  rw [GasClient.answered_of_fits kind
    (by rw [UInt64.toNat_zero, Nat.zero_add]; exact amount.toNat_lt)] at hget
  obtain ⟨s, hrest, hready⟩ := GasClient.alone_checked kind hready₃ href amount calls
  rw [UInt64.zero_add] at hready
  have hrun := hrun₂.trans (solo_of_eq _
    ((update_of_ne hab.symm _ _).trans (update_self b _ _)) (hget.trans hrest))
  rw [Function.update_comm hab.symm, Function.update_idem] at hrun
  have hlocals : ready (update (update progs a []) b calls) =
      update (update (ready progs) a (.idle [])) b (.idle calls) :=
    (comp_update idle _ b calls).trans (congrArg (update · b _) (comp_update idle progs a []))
  exact ⟨s, hready, hlocals ▸ hrun⟩

/-- What is lost then is all that the other client has added. -/
theorem GasRun.lost (kind : GasMeterKind) (hab : a ≠ b) (hb : progs b ≠ [])
    (hfits : ∑ i, total (progs i) < 2 ^ 64) :
    ∃ locals s n, GasRun kind (ready progs, .start none) (locals, s) ∧
      (∀ i, locals i = .idle []) ∧ s.count = .ok n ∧
      n.toNat + total (progs a) = ∑ i, total (progs i) := by
  obtain ⟨amount, calls, hb⟩ := List.exists_cons_of_ne_nil hb
  -- what is left when `a` has made its calls and `b` its first one
  have hsum₁ := Interleaving.sum_update total progs a []
  have hsum₂ := Interleaving.sum_update total (update progs a []) b calls
  rw [update_of_ne hab.symm, hb, GasClient.total_cons] at hsum₂
  have hnil : total [] = 0 := rfl
  obtain ⟨s₁, hready₁, hrun₁⟩ := GasRun.replaced kind hab hb (by omega)
  obtain ⟨locals, s, n, hrun, hready, hlocals, hn⟩ :=
    GasRun.finish kind (update (update progs a []) b calls) Finset.univ
      (fun _ _ => rfl) hready₁ (by omega)
  refine ⟨locals, s, n, hrun₁.trans hrun, fun i => ?_, hready.count, by omega⟩
  rw [hlocals, if_pos (Finset.mem_univ i)]

omit [DecidableEq ι] in
/-- The invariant before the first call. -/
theorem NoGasLost.init
    (h : counter ≠ none ∨ ∀ i j, progs i ≠ [] → progs j ≠ [] → i = j) :
    NoGasLost ((counter.getD 0).toNat + ∑ i, total (progs i))
      (ready progs, .start counter) where
  sound _ := trivial
  inRange := (GasShared.ready_start counter).inRange
  count := ⟨counter.getD 0, (GasShared.ready_start counter).count, rfl⟩
  alone hnone i j hi hj := by
    cases counter with
    | some n => cases hnone
    | none =>
      have hunused := h.resolve_left (not_not.mpr rfl)
      exact hunused i j (mt (congrArg idle) hi) (mt (congrArg idle) hj)

omit [DecidableEq ι] in
/-- When all calls have been made there is nothing left to add. -/
theorem NoGasLost.count_of_finished {sum : ℕ} (h : NoGasLost sum (locals, s))
    (hidle : ∀ i, locals i = .idle []) : s.count = .ok (UInt64.ofNat sum) := by
  obtain ⟨n, hn, hsum⟩ := h.count
  have hzero : ∑ i, (locals i).pending = 0 :=
    Finset.sum_eq_zero fun i _ => congrArg GasClient.pending (hidle i)
  dsimp only at hn hsum
  rw [hn, ← hsum, hzero, Nat.add_zero, UInt64.ofNat_toNat]

/-- With a counter, or with one goroutine. -/
theorem gasAddsUp_of_alone (h : counter ≠ none ∨ ∀ i j, progs i ≠ [] → progs j ≠ [] → i = j)
    (hfits : (counter.getD 0).toNat + ∑ i, total (progs i) < 2 ^ 64) :
    GasAddsUp kind counter progs := by
  intro locals s hrun hidle
  have hinv := invariant (NoGasLost.step hfits) (NoGasLost.init h) hrun
  exact hinv.count_of_finished hidle

/-- Charges of zero add up. -/
theorem gasAddsUp_of_zero (h : ∀ i, ∀ amount ∈ progs i, amount = 0) :
    GasAddsUp kind none progs := by
  have htotal : ∀ i, total (progs i) = 0 := fun i => (GasClient.total_eq_zero_iff _).mpr (h i)
  intro locals s hrun hidle
  have hinv : (∀ i, (locals i).Zero) ∧ s.Zero := by
    refine invariant (I := fun c => (∀ i, (c.1 i).Zero) ∧ c.2.Zero)
      (fun c c' hc hstep => ?_) ⟨htotal, ?_⟩ hrun
    · cases hstep with
      | of i hstep =>
        obtain ⟨hclient, hshared⟩ := (hc.1 i).step hc.2 hstep
        refine ⟨?_, hshared⟩
        rw [forall_update_iff _ fun _ c => GasClient.Zero c]
        exact ⟨hclient, fun j _ => hc.1 j⟩
    · exact ⟨(fun n hn => by cases hn), (fun n hn => by cases hn)⟩
  rw [hinv.2.count, Finset.sum_eq_zero fun i _ => htotal i]
  rfl

/-- Two clients with calls, of which one adds something, can lose it. -/
theorem not_gasAddsUp (hfits : ∑ i, total (progs i) < 2 ^ 64) (hab : a ≠ b) (hb : progs b ≠ [])
    (ha : ¬ ∀ amount ∈ progs a, amount = 0) : ¬ GasAddsUp kind none progs := by
  intro h
  obtain ⟨locals, s, n, hrun, hidle, hcount, hlost⟩ := GasRun.lost kind hab hb hfits
  have hn := Except.ok.inj (hcount.symm.trans (h locals s hrun hidle))
  rw [Option.getD_none, UInt64.toNat_zero, Nat.zero_add] at hn
  rw [hn, UInt64.toNat_ofNat_of_lt' hfits] at hlost
  exact ha ((GasClient.total_eq_zero_iff _).mp (by omega))

/-- **No gas is lost, in whatever interleaving, if and only if** the namespace has a counter before
the first call, or every amount is zero, or no two clients have a call to make. -/
theorem noGasLost_iff (kind : GasMeterKind) (counter : Option Gas) (progs : ι → List Gas)
    (hfits : (counter.getD 0).toNat + ∑ i, total (progs i) < 2 ^ 64) :
    GasAddsUp kind counter progs ↔
      counter ≠ none ∨ (∀ i, ∀ amount ∈ progs i, amount = 0) ∨
        ∀ i j, progs i ≠ [] → progs j ≠ [] → i = j := by
  constructor
  · intro h
    by_contra hcondition
    rw [not_or, not_or, not_not] at hcondition
    obtain ⟨rfl, hnonzero, hmany⟩ := hcondition
    rw [Option.getD_none, UInt64.toNat_zero, Nat.zero_add] at hfits
    obtain ⟨a, ha⟩ := not_forall.mp hnonzero
    -- nobody but `a` has a call to make
    have hothers : ∀ b, progs b ≠ [] → b = a := by
      intro b hb
      by_contra hba
      exact not_gasAddsUp hfits (Ne.symm hba) hb ha h
    exact hmany fun i j hi hj => (hothers i hi).trans (hothers j hj).symm
  · rintro (hcounter | hzero | halone)
    · exact gasAddsUp_of_alone (.inl hcounter) hfits
    · cases counter with
      | some n => exact gasAddsUp_of_alone (.inl (Option.some_ne_none n)) hfits
      | none => exact gasAddsUp_of_zero hzero
    · exact gasAddsUp_of_alone (.inr halone) hfits

/-- A namespace that was used before, and two clients. -/
theorem noGasLost_iff_of_used :
    GasAddsUp (.basic 3) (some 1) (fun _ : Bool => [1, 2]) := by
  refine (noGasLost_iff (.basic 3) (some 1) _ ?_).mpr (.inl (Option.some_ne_none 1))
  decide

/-- Two clients that use a namespace for the first time, with either meter. -/
theorem noGasLost_fails :
    ¬ GasAddsUp .infinite none (fun _ : Bool => [1]) ∧
      ¬ GasAddsUp (.basic 10) none (fun _ : Bool => [1]) := by
  have hlost (kind : GasMeterKind) : ¬ GasAddsUp kind none (fun _ : Bool => [1]) :=
    not_gasAddsUp (by decide) (a := true) (b := false) (by decide) (by decide)
      fun hzero => absurd (hzero 1 (List.mem_singleton.mpr rfl)) (by decide)
  exact ⟨hlost .infinite, hlost (.basic 10)⟩

end Interleavings

end MelodiaStore
