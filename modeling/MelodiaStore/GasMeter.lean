import Mathlib.Algebra.Order.Ring.Nat
import MelodiaStore.Simulation

/-!
# Gas Meters

`basicGasMeter` and `infiniteGasMeter` of `types/gas.go`: what was consumed is counted for each
namespace, in a counter that is created when the namespace is first asked for. The calls are made
one after the other here, and a call that panics is recovered from: the meter is used further.

The counters are kept in a `sync.Map` whose values are of any type. Every method asserts that it
finds a counter; the overflow branch of `ConsumeGas` stores a plain number instead.

## Main results

* `gas_exact`: a meter that does not overflow answers as a ledger that adds up, in each namespace
  apart, what was consumed and what was given back.
* `readableAfter_iff`: after an overflow the meter is never readable.
* `readableAfter_fails`: an overflow of a new meter.
-/

namespace MelodiaStore

/-! ### The meters -/

/-- `types.Gas`. -/
abbrev Gas := UInt64

/-- `math.MaxUint64`. -/
def maxUint64 : Gas := 18446744073709551615

/-- What the methods of a meter panic with. -/
inductive GasPanic
  /-- `ErrorNegativeGasConsumed` -/
  | negativeGasConsumed (descriptor : String)
  /-- `ErrorOutOfGas` -/
  | outOfGas (descriptor : String)
  /-- `ErrorGasOverflow` -/
  | gasOverflow (descriptor : String)
  /-- a type assertion that fails -/
  | typeAssertion
  deriving DecidableEq

/-- The three errors of the package. -/
def GasPanic.IsGasError : GasPanic → Prop
  | negativeGasConsumed _ => True
  | outOfGas _ => True
  | gasOverflow _ => True
  | typeAssertion => False

/-- A value of the map `consumed`: an `*atomic.Uint64`, which is reached through the map only, or
a `Gas`. -/
inductive GasValue
  | counter (n : Gas)
  | gas (n : Gas)
  deriving DecidableEq

/-- `gas.(*atomic.Uint64).Load()`. -/
def GasValue.load : GasValue → Except GasPanic Gas
  | counter n => .ok n
  | gas _ => .error .typeAssertion

/-- The fields that the methods of both meters change. The limit of a `basicGasMeter` is an argument
of its methods. -/
structure GasCounters where
  consumed : GoMap UInt64 GasValue
  namespaceId : UInt64

namespace GasCounters

/-- `NewGasMeter` and `NewInfiniteGasMeter`. -/
def newGasMeter : GasCounters := ⟨∅, 0⟩

/-- `WithNamespaceId`. -/
def withNamespaceId (namespaceId : UInt64) : EStateM GasPanic GasCounters Unit :=
  modify fun g => { g with namespaceId }

/-- `getConsumed`. -/
def getConsumed : EStateM GasPanic GasCounters Gas := do
  let g ← MonadState.get
  match g.consumed.lookup g.namespaceId with
  | some c => ofExcept c.load
  | none =>
    set { g with consumed := g.consumed.insert g.namespaceId (.counter 0) }
    return 0

/-- `if gas, ok := g.consumed.Load(g.namespaceId); ok { gas.(*atomic.Uint64).Add(amount) }`. -/
def addConsumed (amount : Gas) : EStateM GasPanic GasCounters Unit := do
  let g ← MonadState.get
  match g.consumed.lookup g.namespaceId with
  | some c =>
    let n ← ofExcept c.load
    set { g with consumed := g.consumed.insert g.namespaceId (.counter (n + amount)) }
  | none => return

/-- `RefundGas`, which is the same in both meters. -/
def refundGas (amount : Gas) (descriptor : String) : EStateM GasPanic GasCounters Unit := do
  let consumed ← getConsumed
  if consumed < amount then
    throw (.negativeGasConsumed descriptor)
  addConsumed (-amount)

end GasCounters

namespace BasicGasMeter

open GasCounters

variable (limit : Gas)

/-- `basicGasMeter.GasConsumed`. -/
def gasConsumed : EStateM GasPanic GasCounters Gas := getConsumed

/-- `basicGasMeter.GasRemaining`. -/
def gasRemaining : EStateM GasPanic GasCounters Gas := do
  let consumed ← getConsumed
  return if limit < consumed then 0 else limit - consumed

/-- `basicGasMeter.GasConsumedToLimit`. -/
def gasConsumedToLimit : EStateM GasPanic GasCounters Gas := do
  let consumed ← getConsumed
  return if limit < consumed then limit else consumed

/-- `basicGasMeter.ConsumeGas`. -/
def consumeGas (amount : Gas) (descriptor : String) : EStateM GasPanic GasCounters Unit := do
  let consumed ← getConsumed
  if maxUint64 - consumed < amount then
    modify fun g => { g with consumed := g.consumed.insert g.namespaceId (.gas maxUint64) }
    throw (.gasOverflow descriptor)
  addConsumed amount
  let newConsumed ← getConsumed
  if limit < newConsumed then
    throw (.outOfGas descriptor)

/-- `basicGasMeter.IsPastLimit`. -/
def isPastLimit : EStateM GasPanic GasCounters Bool := do
  let consumed ← getConsumed
  return limit < consumed

/-- `basicGasMeter.IsOutOfGas`. -/
def isOutOfGas : EStateM GasPanic GasCounters Bool := do
  let consumed ← getConsumed
  return limit ≤ consumed

end BasicGasMeter

/-- `infiniteGasMeter.ConsumeGas`. -/
def InfiniteGasMeter.consumeGas (amount : Gas) (descriptor : String) :
    EStateM GasPanic GasCounters Unit := do
  let consumed ← GasCounters.getConsumed
  if maxUint64 - consumed < amount then
    throw (.gasOverflow descriptor)
  GasCounters.addConsumed amount

/-! ### Calls -/

/-- A call of a `basicGasMeter`. -/
inductive GasCall
  | withNamespaceId (namespaceId : UInt64)
  | consumeGas (amount : Gas) (descriptor : String)
  | refundGas (amount : Gas) (descriptor : String)
  | gasConsumed
  | gasRemaining
  | gasConsumedToLimit
  | limit
  | isPastLimit
  | isOutOfGas

/-- What a call returns. -/
inductive GasAnswer
  | done
  | gas (n : ℕ)
  | bool (b : Bool)
  deriving DecidableEq

namespace BasicGasMeter

open GasCounters

/-- Perform a call. -/
def perform (limit : Gas) : GasCall → EStateM GasPanic GasCounters GasAnswer
  | .withNamespaceId id => do withNamespaceId id; return .done
  | .consumeGas amount descriptor => do consumeGas limit amount descriptor; return .done
  | .refundGas amount descriptor => do refundGas amount descriptor; return .done
  | .gasConsumed => do return .gas (← gasConsumed).toNat
  | .gasRemaining => do return .gas (← gasRemaining limit).toNat
  | .gasConsumedToLimit => do return .gas (← gasConsumedToLimit limit).toNat
  | .limit => return .gas limit.toNat
  | .isPastLimit => do return .bool (← isPastLimit limit)
  | .isOutOfGas => do return .bool (← isOutOfGas limit)

end BasicGasMeter

/-! ### What the methods do to the counters -/

namespace GasCounters

variable {g : GasCounters} {n amount : Gas} {descriptor : String} {id : UInt64} {e : GasPanic}

/-- What `getConsumed` finds in a namespace: `0` when there is no counter yet. -/
def count (g : GasCounters) (id : UInt64) : Except GasPanic Gas :=
  match g.consumed.lookup id with
  | some c => c.load
  | none => .ok 0

/-- The counters with another value for the current namespace. -/
def put (g : GasCounters) (c : GasValue) : GasCounters :=
  { g with consumed := g.consumed.insert g.namespaceId c }

theorem count_of_some {c : GasValue} (h : g.consumed.lookup id = some c) : g.count id = c.load := by
  simp only [count, h]

theorem count_of_none (h : g.consumed.lookup id = none) : g.count id = .ok 0 := by
  simp only [count, h]

theorem eq_typeAssertion_of_count (h : g.count id = .error e) : e = .typeAssertion := by
  cases hlookup : g.consumed.lookup id with
  | none =>
    rw [count_of_none hlookup] at h
    cases h
  | some c =>
    rw [count_of_some hlookup] at h
    cases c with
    | counter n => cases h
    | gas n => exact (Except.error.inj h).symm

/-- What is counted after a write. -/
theorem count_put (g : GasCounters) (c : GasValue) (id : UInt64) :
    (g.put c).count id = if id = g.namespaceId then c.load else g.count id := by
  simp only [count, put, lookup_insert_ite]
  by_cases h : id = g.namespaceId <;> simp [h]

/-- `getConsumed` leaves a counter for the namespace, if it returns. -/
theorem outcome_getConsumed (h : g.count g.namespaceId = .ok n) :
    ∃ g', outcome getConsumed g = (.ok n, g') ∧ g'.namespaceId = g.namespaceId ∧
      g'.consumed.lookup g.namespaceId = some (.counter n) ∧ ∀ id, g'.count id = g.count id := by
  rw [getConsumed, outcome_bind_ok (outcome_get g)]
  cases hlookup : g.consumed.lookup g.namespaceId with
  | some c =>
    rw [count_of_some hlookup] at h
    cases c with
    | counter m =>
      obtain rfl := Except.ok.inj h
      exact ⟨g, rfl, rfl, hlookup, fun _ => rfl⟩
    | gas m => cases h
  | none =>
    rw [count_of_none hlookup] at h
    obtain rfl := Except.ok.inj h
    refine ⟨g.put (.counter 0), rfl, rfl, ?_, fun id => ?_⟩
    · rw [put, lookup_insert_ite, if_pos rfl]
    · rw [count_put]
      split
      · next hid => rw [hid, count_of_none hlookup]; rfl
      · rfl

theorem outcome_getConsumed_of_error (h : g.count g.namespaceId = .error e) :
    outcome getConsumed g = (.error e, g) := by
  rw [getConsumed, outcome_bind_ok (outcome_get g)]
  cases hlookup : g.consumed.lookup g.namespaceId with
  | some c =>
    rw [count_of_some hlookup] at h
    dsimp only
    rw [outcome_ofExcept, h]
  | none =>
    rw [count_of_none hlookup] at h
    cases h

/-- Gas is added to a counter. -/
theorem outcome_addConsumed (h : g.consumed.lookup g.namespaceId = some (.counter n))
    (amount : Gas) :
    outcome (addConsumed amount) g = (.ok (), g.put (.counter (n + amount))) := by
  rw [addConsumed, outcome_bind_ok (outcome_get g), h]
  rfl

/-- **`RefundGas`** takes back what was consumed, and no more. -/
theorem outcome_refundGas (h : g.count g.namespaceId = .ok n) (amount : Gas)
    (descriptor : String) :
    ∃ g', g'.namespaceId = g.namespaceId ∧
      (n < amount ∧
          outcome (refundGas amount descriptor) g = (.error (.negativeGasConsumed descriptor), g') ∧
          (∀ id, g'.count id = g.count id) ∨
        amount ≤ n ∧ outcome (refundGas amount descriptor) g = (.ok (), g') ∧
          ∀ id, g'.count id = if id = g.namespaceId then .ok (n - amount) else g.count id) := by
  obtain ⟨g₁, hget, hid, hlookup, hcount⟩ := outcome_getConsumed h
  rw [refundGas, outcome_bind_ok hget]
  by_cases hlt : n < amount
  · rw [if_pos hlt]
    exact ⟨g₁, hid, .inl ⟨hlt, rfl, hcount⟩⟩
  · rw [if_neg hlt]
    rw [← hid] at hlookup
    refine ⟨g₁.put (.counter (n + -amount)), hid, .inr ⟨UInt64.not_lt.mp hlt, ?_, fun id => ?_⟩⟩
    · exact outcome_addConsumed hlookup _
    · rw [count_put, hid, hcount, GasValue.load, ← UInt64.sub_eq_add_neg]

theorem toNat_maxUint64 : maxUint64.toNat = 2 ^ 64 - 1 := rfl

theorem toNat_add_of_fits {n amount : Gas} (hfits : n.toNat + amount.toNat < 2 ^ 64) :
    (n + amount).toNat = n.toNat + amount.toNat := by
  rw [UInt64.toNat_add, Nat.mod_eq_of_lt hfits]

/-- The test for an overflow, which is made by subtracting. -/
theorem overflow_iff (n amount : Gas) :
    maxUint64 - n < amount ↔ 2 ^ 64 ≤ n.toNat + amount.toNat := by
  have hn := n.toNat_lt
  have hle : n ≤ maxUint64 := by
    rw [UInt64.le_iff_toNat_le, toNat_maxUint64]
    omega
  rw [UInt64.lt_iff_toNat_lt, UInt64.toNat_sub_of_le _ _ hle, toNat_maxUint64]
  omega

end GasCounters

namespace BasicGasMeter

open GasCounters

variable {g : GasCounters} {n amount : Gas} {descriptor : String}

/-- **`ConsumeGas`** adds the amount, and panics if the sum is past the limit. -/
theorem outcome_consumeGas (h : g.count g.namespaceId = .ok n)
    (hfits : n.toNat + amount.toNat < 2 ^ 64) (limit : Gas) (descriptor : String) :
    ∃ g', outcome (consumeGas limit amount descriptor) g =
        (if limit < n + amount then .error (.outOfGas descriptor) else .ok (), g') ∧
      g'.namespaceId = g.namespaceId ∧
      ∀ id, g'.count id = if id = g.namespaceId then .ok (n + amount) else g.count id := by
  obtain ⟨g₁, hget, hid, hlookup, hcount⟩ := outcome_getConsumed h
  rw [← hid] at hlookup
  have hput : (g₁.put (.counter (n + amount))).count g₁.namespaceId = .ok (n + amount) := by
    rw [count_put, if_pos rfl]
    rfl
  obtain ⟨g₂, hget₂, hid₂, -, hcount₂⟩ := outcome_getConsumed
    (g := g₁.put (.counter (n + amount))) hput
  refine ⟨g₂, ?_, hid₂.trans hid, fun id => ?_⟩
  · rw [consumeGas, outcome_bind_ok hget, if_neg (by rw [overflow_iff]; omega),
      outcome_bind_ok (outcome_addConsumed hlookup amount), outcome_bind_ok hget₂]
    split <;> rfl
  · rw [hcount₂, count_put, hid, hcount, GasValue.load]

/-- **An overflow** leaves a plain number where the methods look for a counter. -/
theorem outcome_consumeGas_of_overflow (h : g.count g.namespaceId = .ok n)
    (hoverflow : 2 ^ 64 ≤ n.toNat + amount.toNat) (limit : Gas) (descriptor : String) :
    ∃ g', outcome (consumeGas limit amount descriptor) g =
        (.error (.gasOverflow descriptor), g') ∧ g'.namespaceId = g.namespaceId ∧
      g'.count g.namespaceId = .error .typeAssertion := by
  obtain ⟨g₁, hget, hid, -, -⟩ := outcome_getConsumed h
  refine ⟨g₁.put (.gas maxUint64), ?_, hid, ?_⟩
  · rw [consumeGas, outcome_bind_ok hget, if_pos ((overflow_iff n amount).mpr hoverflow)]
    rfl
  · rw [count_put, if_pos hid.symm]
    rfl

/-- The answer to a call that reads the counter, and the limit. -/
def answer? (limit n : Gas) : GasCall → Option GasAnswer
  | .gasConsumed => some (.gas n.toNat)
  | .gasRemaining => some (.gas (if limit < n then 0 else limit - n).toNat)
  | .gasConsumedToLimit => some (.gas (if limit < n then limit else n).toNat)
  | .isPastLimit => some (.bool (limit < n))
  | .isOutOfGas => some (.bool (limit ≤ n))
  | _ => none

/-- **The queries** read the counter of the namespace. -/
theorem outcome_query {limit : Gas} {call : GasCall} {a : GasAnswer}
    (h : g.count g.namespaceId = .ok n) (hcall : answer? limit n call = some a) :
    ∃ g', outcome (perform limit call) g = (.ok a, g') ∧ g'.namespaceId = g.namespaceId ∧
      ∀ id, g'.count id = g.count id := by
  obtain ⟨g₁, hget, hid, -, hcount⟩ := outcome_getConsumed h
  refine ⟨g₁, ?_, hid, hcount⟩
  cases call with
  | withNamespaceId id | consumeGas amount descriptor | refundGas amount descriptor | limit =>
    cases hcall
  | gasConsumed | gasRemaining | gasConsumedToLimit | isPastLimit | isOutOfGas =>
    obtain rfl := Option.some.inj hcall
    simp only [perform, gasConsumed, gasRemaining, gasConsumedToLimit, isPastLimit, isOutOfGas,
      outcome_bind_pure, hget]
    rfl

end BasicGasMeter

namespace InfiniteGasMeter

open GasCounters

variable {g : GasCounters} {n amount : Gas}

/-- **`ConsumeGas`** of an infinite meter adds the amount. -/
theorem outcome_consumeGas (h : g.count g.namespaceId = .ok n)
    (hfits : n.toNat + amount.toNat < 2 ^ 64) (descriptor : String) :
    ∃ g', outcome (consumeGas amount descriptor) g = (.ok (), g') ∧
      g'.namespaceId = g.namespaceId ∧
      ∀ id, g'.count id = if id = g.namespaceId then .ok (n + amount) else g.count id := by
  obtain ⟨g₁, hget, hid, hlookup, hcount⟩ := outcome_getConsumed h
  rw [← hid] at hlookup
  refine ⟨g₁.put (.counter (n + amount)), ?_, hid, fun id => ?_⟩
  · rw [consumeGas, outcome_bind_ok hget, if_neg (by rw [overflow_iff]; omega)]
    exact outcome_addConsumed hlookup amount
  · rw [count_put, hid, hcount, GasValue.load]

/-- An overflow of an infinite meter counts nothing. -/
theorem outcome_consumeGas_of_overflow (h : g.count g.namespaceId = .ok n)
    (hoverflow : 2 ^ 64 ≤ n.toNat + amount.toNat) (descriptor : String) :
    ∃ g', outcome (consumeGas amount descriptor) g = (.error (.gasOverflow descriptor), g') ∧
      g'.namespaceId = g.namespaceId ∧ ∀ id, g'.count id = g.count id := by
  obtain ⟨g₁, hget, hid, -, hcount⟩ := outcome_getConsumed h
  refine ⟨g₁, ?_, hid, hcount⟩
  rw [consumeGas, outcome_bind_ok hget, if_pos ((overflow_iff n amount).mpr hoverflow)]
  rfl

end InfiniteGasMeter

/-! ### The ledger -/

/-- What a meter is for: in each namespace, the sum of what was consumed, and of what was given
back. -/
structure GasLedger where
  namespaceId : UInt64
  consumed : UInt64 → ℕ
  refunded : UInt64 → ℕ

namespace GasLedger

def empty : GasLedger := ⟨0, fun _ => 0, fun _ => 0⟩

/-- What was consumed and not given back. -/
def balance (l : GasLedger) (id : UInt64) : ℕ := l.consumed id - l.refunded id

/-- Add an amount to the sum of a namespace. -/
def credit (sums : UInt64 → ℕ) (id : UInt64) (amount : ℕ) : UInt64 → ℕ :=
  Function.update sums id (sums id + amount)

def consume (l : GasLedger) (amount : ℕ) : GasLedger :=
  { l with consumed := credit l.consumed l.namespaceId amount }

def refund (l : GasLedger) (amount : ℕ) : GasLedger :=
  { l with refunded := credit l.refunded l.namespaceId amount }

/-- A call of a meter whose ledger this is. A `ConsumeGas` counts even if it panics, a `RefundGas`
that panics does not. -/
def perform (limit : ℕ) : GasCall → EStateM GasPanic GasLedger GasAnswer
  | .withNamespaceId id => do
    modify fun l => { l with namespaceId := id }
    return .done
  | .consumeGas amount descriptor => do
    modify fun l => l.consume amount.toNat
    let l ← MonadState.get
    if limit < l.balance l.namespaceId then
      throw (.outOfGas descriptor)
    return .done
  | .refundGas amount descriptor => do
    let l ← MonadState.get
    if l.balance l.namespaceId < amount.toNat then
      throw (.negativeGasConsumed descriptor)
    set (l.refund amount.toNat)
    return .done
  | .gasConsumed => do let l ← MonadState.get; return .gas (l.balance l.namespaceId)
  | .gasRemaining => do let l ← MonadState.get; return .gas (limit - l.balance l.namespaceId)
  | .gasConsumedToLimit => do
    let l ← MonadState.get
    return .gas (min limit (l.balance l.namespaceId))
  | .limit => return .gas limit
  | .isPastLimit => do let l ← MonadState.get; return .bool (limit < l.balance l.namespaceId)
  | .isOutOfGas => do let l ← MonadState.get; return .bool (limit ≤ l.balance l.namespaceId)

/-- A charge in the ledger. -/
theorem outcome_consumeGas (limit : ℕ) (amount : Gas) (descriptor : String) (l : GasLedger) :
    outcome (perform limit (.consumeGas amount descriptor)) l =
      (if limit < (l.consume amount.toNat).balance l.namespaceId then
        .error (.outOfGas descriptor) else .ok .done, l.consume amount.toNat) := by
  rw [perform, outcome_bind_ok (outcome_modify _ l), outcome_bind_ok (outcome_get _)]
  by_cases h : limit < (l.consume amount.toNat).balance l.namespaceId
  · simp only [if_pos h]
    exact if_pos h ▸ rfl
  · simp only [if_neg h]
    exact if_neg h ▸ rfl

/-- A refund in the ledger. -/
theorem outcome_refundGas (limit : ℕ) (amount : Gas) (descriptor : String) (l : GasLedger) :
    outcome (perform limit (.refundGas amount descriptor)) l =
      if l.balance l.namespaceId < amount.toNat then (.error (.negativeGasConsumed descriptor), l)
      else (.ok .done, l.refund amount.toNat) := by
  rw [perform, outcome_bind_ok (outcome_get l)]
  split <;> rfl

/-- A `ConsumeGas` leaves a sum that can be counted. -/
def Fits (l : GasLedger) : GasCall → Prop
  | .consumeGas amount _ => l.balance l.namespaceId + amount.toNat < 2 ^ 64
  | _ => True

instance instDecidableFits (l : GasLedger) (call : GasCall) : Decidable (l.Fits call) :=
  match call with
  | .consumeGas amount _ =>
    inferInstanceAs (Decidable (l.balance l.namespaceId + amount.toNat < 2 ^ 64))
  | .withNamespaceId _ | .refundGas _ _ | .gasConsumed | .gasRemaining | .gasConsumedToLimit
  | .limit | .isPastLimit | .isOutOfGas => isTrue trivial

/-- No `ConsumeGas` of the run exceeds what can be counted in its namespace. -/
def AllFit (limit : ℕ) : List GasCall → GasLedger → Prop
  | [], _ => True
  | call :: calls, l => l.Fits call ∧ AllFit limit calls (outcome (perform limit call) l).2

variable {l : GasLedger}

/-- No more is given back than was consumed. -/
def Sound (l : GasLedger) : Prop := ∀ id, l.refunded id ≤ l.consumed id

theorem sound_empty : empty.Sound := fun _ => le_rfl

/-- The balances after a charge. -/
theorem balance_consume (h : l.Sound) (amount : ℕ) (id : UInt64) :
    (l.consume amount).balance id =
      if id = l.namespaceId then l.balance l.namespaceId + amount else l.balance id := by
  have hle := h l.namespaceId
  simp only [balance, consume, credit, Function.update_apply]
  split
  · next hid => subst hid; omega
  · rfl

theorem Sound.consume (h : l.Sound) (amount : ℕ) : (l.consume amount).Sound := by
  intro id
  have hle := h id
  simp only [GasLedger.consume, credit, Function.update_apply]
  split
  · next hid => subst hid; omega
  · exact hle

/-- The balances after a refund. -/
theorem balance_refund (amount : ℕ) (id : UInt64) :
    (l.refund amount).balance id =
      if id = l.namespaceId then l.balance l.namespaceId - amount else l.balance id := by
  simp only [balance, refund, credit, Function.update_apply]
  split
  · next hid => subst hid; omega
  · rfl

theorem Sound.refund (h : l.Sound) {amount : ℕ} (hle : amount ≤ l.balance l.namespaceId) :
    (l.refund amount).Sound := by
  intro id
  have hid := h id
  rw [balance] at hle
  simp only [GasLedger.refund, credit, Function.update_apply]
  split
  · next hid => subst hid; omega
  · exact hid

end GasLedger

/-! ### The meter keeps its ledger -/

namespace BasicGasMeter

open GasCounters

variable {g : GasCounters} {l : GasLedger} {limit : Gas} {call : GasCall}

/-- The counters are what the ledger says, and their namespaces are. -/
structure Keeps (g : GasCounters) (l : GasLedger) : Prop where
  namespaceId_eq : g.namespaceId = l.namespaceId
  count_eq : ∀ id, ∃ n, g.count id = .ok n ∧ n.toNat = l.balance id
  sound : l.Sound

/-- A new meter. -/
theorem keeps_newGasMeter : Keeps newGasMeter .empty :=
  ⟨rfl, fun _ => ⟨0, rfl, rfl⟩, GasLedger.sound_empty⟩

section

variable (h : Keeps g l)
include h

variable {n : Gas} {g' : GasCounters}

/-- The counters after a change in the current namespace. -/
theorem Keeps.update {l' : GasLedger} {n' : Gas} (hid : g'.namespaceId = g.namespaceId)
    (hid' : l'.namespaceId = l.namespaceId)
    (hcount : ∀ id, g'.count id = if id = g.namespaceId then .ok n' else g.count id)
    (hn : n'.toNat = l'.balance l.namespaceId)
    (hother : ∀ id, id ≠ l.namespaceId → l'.balance id = l.balance id) (hsound : l'.Sound) :
    Keeps g' l' := by
  refine ⟨hid.trans (h.namespaceId_eq.trans hid'.symm), fun id => ?_, hsound⟩
  rw [hcount]
  by_cases heq : id = g.namespaceId
  · rw [if_pos heq, heq, h.namespaceId_eq]
    exact ⟨n', rfl, hn⟩
  · rw [if_neg heq, hother id (h.namespaceId_eq ▸ heq)]
    exact h.count_eq id

theorem Keeps.of_count (hid : g'.namespaceId = g.namespaceId)
    (hcount : ∀ id, g'.count id = g.count id) : Keeps g' l :=
  ⟨hid.trans h.namespaceId_eq, fun id => hcount id ▸ h.count_eq id, h.sound⟩

section

variable (hn : g.count g.namespaceId = .ok n)
include hn

/-- The queries do not change the ledger. -/
theorem Keeps.query {a : GasAnswer} (hcall : answer? limit n call = some a)
    (hledger : outcome (GasLedger.perform limit.toNat call) l = (.ok a, l)) :
    SameOutcome Keeps (perform limit call) g (GasLedger.perform limit.toNat call) l := by
  obtain ⟨g', hout, hid, hcount⟩ := outcome_query hn hcall
  rw [SameOutcome, hout, hledger]
  exact ⟨rfl, h.of_count hid hcount⟩

variable (hnat : n.toNat = l.balance l.namespaceId)
include hnat

/-- The meter and its ledger at a `ConsumeGas`. -/
theorem Keeps.consumeGas {amount : Gas} (limit : Gas) (hsum : n.toNat + amount.toNat < 2 ^ 64)
    (descriptor : String) :
    SameOutcome Keeps (perform limit (.consumeGas amount descriptor)) g
      (GasLedger.perform limit.toNat (.consumeGas amount descriptor)) l := by
  have hadd := toNat_add_of_fits hsum
  obtain ⟨g', hout, hid, hcount⟩ := outcome_consumeGas hn hsum limit descriptor
  have hbalance := GasLedger.balance_consume h.sound amount.toNat
  have hkeeps : Keeps g' (l.consume amount.toNat) := by
    refine h.update hid rfl hcount ?_ (fun id hne => ?_) (h.sound.consume _)
    · rw [hbalance, if_pos rfl, hadd, hnat]
    · rw [hbalance, if_neg hne]
  have hlimit : limit < n + amount ↔
      limit.toNat < (l.consume amount.toNat).balance l.namespaceId := by
    rw [UInt64.lt_iff_toNat_lt, hadd, hbalance, if_pos rfl, hnat]
  rw [SameOutcome, perform, outcome_bind_pure, hout, GasLedger.outcome_consumeGas]
  refine ⟨?_, hkeeps⟩
  by_cases hpast : limit < n + amount
  · simp only [if_pos hpast, if_pos (hlimit.mp hpast)]
    rfl
  · simp only [if_neg hpast, if_neg fun hlt => hpast (hlimit.mpr hlt)]
    rfl

/-- The meter and its ledger at a `RefundGas`. -/
theorem Keeps.refundGas (limit amount : Gas) (descriptor : String) :
    SameOutcome Keeps (perform limit (.refundGas amount descriptor)) g
      (GasLedger.perform limit.toNat (.refundGas amount descriptor)) l := by
  rw [SameOutcome, perform, outcome_bind_pure, GasLedger.outcome_refundGas]
  obtain ⟨g', hid, ⟨hlt, hout, hcount⟩ | ⟨hle, hout, hcount⟩⟩ :=
    outcome_refundGas hn amount descriptor
  · rw [UInt64.lt_iff_toNat_lt, hnat] at hlt
    rw [hout, if_pos hlt]
    exact ⟨rfl, h.of_count hid hcount⟩
  · have hsub := UInt64.toNat_sub_of_le _ _ hle
    rw [UInt64.le_iff_toNat_le, hnat] at hle
    rw [hout, if_neg (Nat.not_lt.mpr hle)]
    refine ⟨rfl, h.update hid rfl hcount ?_ (fun id hne => ?_) (h.sound.refund hle)⟩
    · rw [GasLedger.balance_refund, if_pos rfl, hsub, hnat]
    · rw [GasLedger.balance_refund, if_neg hne]

end

/-- **The step lemma.** The meter answers a call as its ledger does. -/
theorem Keeps.step (limit : Gas) (call : GasCall) (hfits : l.Fits call) :
    SameOutcome Keeps (perform limit call) g (GasLedger.perform limit.toNat call) l := by
  obtain ⟨n, hn, hnat⟩ := h.count_eq g.namespaceId
  rw [h.namespaceId_eq] at hnat
  cases call with
  | withNamespaceId id => exact ⟨rfl, rfl, h.count_eq, h.sound⟩
  | consumeGas amount descriptor => exact h.consumeGas hn hnat limit (hnat ▸ hfits) descriptor
  | refundGas amount descriptor => exact h.refundGas hn hnat limit amount descriptor
  | limit => exact ⟨rfl, h⟩
  | gasConsumed => exact h.query hn (congrArg (some ∘ GasAnswer.gas) hnat) rfl
  | gasRemaining =>
    refine h.query hn (congrArg (some ∘ GasAnswer.gas) ?_) rfl
    rw [← hnat]
    split
    · next hlt =>
      rw [UInt64.lt_iff_toNat_lt] at hlt
      simp only [UInt64.toNat_zero]
      omega
    · next hge => exact UInt64.toNat_sub_of_le _ _ (UInt64.not_lt.mp hge)
  | gasConsumedToLimit =>
    refine h.query hn (congrArg (some ∘ GasAnswer.gas) ?_) rfl
    rw [← hnat]
    split
    · next hlt =>
      rw [UInt64.lt_iff_toNat_lt] at hlt
      omega
    · next hge =>
      rw [UInt64.lt_iff_toNat_lt] at hge
      omega
  | isPastLimit =>
    refine h.query hn (congrArg (some ∘ GasAnswer.bool) ?_) rfl
    rw [← hnat, decide_eq_decide, UInt64.lt_iff_toNat_lt]
  | isOutOfGas =>
    refine h.query hn (congrArg (some ∘ GasAnswer.bool) ?_) rfl
    rw [← hnat, decide_eq_decide, UInt64.le_iff_toNat_le]

/-- **The run lemma**, by induction on the calls. -/
theorem Keeps.run {calls : List GasCall} (hfits : GasLedger.AllFit limit.toNat calls l) :
    (outcomes (perform limit) calls g).1 =
        (outcomes (GasLedger.perform limit.toNat) calls l).1 ∧
      Keeps (outcomes (perform limit) calls g).2
        (outcomes (GasLedger.perform limit.toNat) calls l).2 := by
  induction calls generalizing g l with
  | nil => exact ⟨rfl, h⟩
  | cons call calls ih =>
    obtain ⟨hanswer, hkeeps⟩ := h.step limit call hfits.1
    obtain ⟨hanswers, hkeeps'⟩ := ih hkeeps hfits.2
    exact ⟨congrArg₂ List.cons hanswer hanswers, hkeeps'⟩

end

/-- The counters after a run of a new meter. -/
def after (limit : Gas) (calls : List GasCall) : GasCounters :=
  (outcomes (perform limit) calls newGasMeter).2

/-- **Gas accounting is exact in every namespace.** When no `ConsumeGas` exceeds what can be
counted, every call of a run returns or panics as the ledger says; and at its end, in whatever
namespace, `GasConsumed` is the sum of what was consumed less the sum of what was given back, and
`GasRemaining` and `GasConsumedToLimit` add up to the limit. -/
theorem gas_exact (limit : Gas) (calls : List GasCall)
    (hfits : GasLedger.AllFit limit.toNat calls .empty) :
    (outcomes (perform limit) calls newGasMeter).1 =
        (outcomes (GasLedger.perform limit.toNat) calls .empty).1 ∧
      ∀ id, ∃ l, l = (outcomes (GasLedger.perform limit.toNat) calls .empty).2 ∧
        l.refunded id ≤ l.consumed id ∧
        (outcome (perform limit .gasConsumed) { after limit calls with namespaceId := id }).1 =
          .ok (.gas (l.consumed id - l.refunded id)) ∧
        ∃ remaining toLimit,
          (outcome (perform limit .gasRemaining) { after limit calls with namespaceId := id }).1 =
            .ok (.gas remaining) ∧
          (outcome (perform limit .gasConsumedToLimit)
            { after limit calls with namespaceId := id }).1 = .ok (.gas toLimit) ∧
          remaining + toLimit = limit.toNat := by
  obtain ⟨hanswers, hkeeps⟩ := keeps_newGasMeter.run hfits
  refine ⟨hanswers, fun id => ?_⟩
  obtain ⟨-, hid⟩ := hkeeps.step limit (.withNamespaceId id) trivial
  refine ⟨_, rfl, hkeeps.sound id, (hid.step limit .gasConsumed trivial).1, _, _,
    (hid.step limit .gasRemaining trivial).1, (hid.step limit .gasConsumedToLimit trivial).1, ?_⟩
  omega

/-- Two namespaces, of which one is out of gas. -/
theorem gas_exact_of_twoNamespaces :
    ∃ calls : List GasCall, calls = [.withNamespaceId 1, .consumeGas 60 "", .refundGas 10 "",
        .withNamespaceId 2, .consumeGas 200 ""] ∧
      (outcomes (perform 100) calls newGasMeter).1 =
        [.ok .done, .ok .done, .ok .done, .ok .done, .error (.outOfGas "")] ∧
      (outcome (perform 100 .gasConsumed) { after 100 calls with namespaceId := 1 }).1 =
        .ok (.gas 50) := by
  obtain ⟨hanswers, hstate⟩ := gas_exact 100 [.withNamespaceId 1, .consumeGas 60 "",
    .refundGas 10 "", .withNamespaceId 2, .consumeGas 200 ""]
    ⟨trivial, by decide, trivial, trivial, by decide, trivial⟩
  obtain ⟨l, rfl, -, hconsumed, -⟩ := hstate 1
  exact ⟨_, rfl, hanswers, hconsumed⟩

/-! ### After an overflow -/

/-- What an overflow should leave: the counter is at its greatest value, and everything that is
called from then on returns, or panics with an error of the package. -/
structure Readable (limit : Gas) (g : GasCounters) : Prop where
  gasConsumed : (outcome (perform limit .gasConsumed) g).1 = .ok (.gas (2 ^ 64 - 1))
  gasConsumedToLimit :
    (outcome (perform limit .gasConsumedToLimit) g).1 = .ok (.gas limit.toNat)
  gasRemaining : limit < maxUint64 →
    (outcome (perform limit .gasRemaining) g).1 = .ok (.gas 0)
  isOutOfGas : (outcome (perform limit .isOutOfGas) g).1 = .ok (.bool true)
  gasErrors : ∀ calls e, .error e ∈ (outcomes (perform limit) calls g).1 → e.IsGasError

/-- The amount exceeds what can be counted in the current namespace, which has a counter or none
yet. -/
def Overflows (g : GasCounters) (amount : Gas) : Prop :=
  ∃ n, g.count g.namespaceId = .ok n ∧ 2 ^ 64 ≤ n.toNat + amount.toNat

/-- A counter of the wrong type. -/
theorem not_readable {e : GasPanic} (h : g.count g.namespaceId = .error e) :
    ¬Readable limit g := by
  intro hreadable
  have hconsumed := hreadable.gasConsumed
  rw [perform, gasConsumed, outcome_bind_pure, outcome_getConsumed_of_error h] at hconsumed
  cases hconsumed

/-- Only an overflow panics with `ErrorGasOverflow`. -/
theorem overflows_of_gasOverflow {amount : Gas} {descriptor : String}
    (h : (outcome (perform limit (.consumeGas amount descriptor)) g).1 =
      .error (.gasOverflow descriptor)) : Overflows g amount := by
  rw [perform, outcome_bind_pure] at h
  cases hcount : g.count g.namespaceId with
  | error e =>
    obtain rfl := eq_typeAssertion_of_count hcount
    rw [consumeGas, outcome_bind_error (outcome_getConsumed_of_error hcount)] at h
    cases h
  | ok n =>
    refine ⟨n, hcount, Nat.not_lt.mp fun hfits => ?_⟩
    obtain ⟨g', hout, -⟩ := outcome_consumeGas hcount hfits limit descriptor
    rw [hout] at h
    split at h <;> cases h

/-- **A meter is not readable after an overflow**: whatever was called before, a `ConsumeGas` that
panics with `ErrorGasOverflow` leaves it readable only if there is no overflow, in which case it
does not panic with that. -/
theorem readableAfter_iff (limit : Gas) (history : List GasCall) (amount : Gas)
    (descriptor : String) :
    ((outcome (perform limit (.consumeGas amount descriptor)) (after limit history)).1 =
        .error (.gasOverflow descriptor) →
      Readable limit
        (outcome (perform limit (.consumeGas amount descriptor)) (after limit history)).2) ↔
    ¬Overflows (after limit history) amount := by
  constructor
  · rintro h ⟨n, hn, hoverflow⟩
    obtain ⟨g', hout, hid, hbroken⟩ := outcome_consumeGas_of_overflow hn hoverflow limit descriptor
    rw [perform, outcome_bind_pure, hout] at h
    rw [← hid] at hbroken
    exact not_readable hbroken (h rfl)
  · exact fun hfits h => absurd (overflows_of_gasOverflow h) hfits

/-- One unit is consumed, and then the greatest amount. -/
theorem readableAfter_fails :
    ∃ g, outcome (perform 100 (.consumeGas maxUint64 "")) (after 100 [.consumeGas 1 ""]) =
        (.error (.gasOverflow ""), g) ∧
      (outcome (perform 100 .gasConsumed) g).1 = .error .typeAssertion ∧ ¬Readable 100 g := by
  refine ⟨_, rfl, rfl, fun h => ?_⟩
  cases h.gasConsumed

end BasicGasMeter

end MelodiaStore
