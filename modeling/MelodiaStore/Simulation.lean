import MelodiaStore.Effects

/-!
# Simulation of a Machine by a Specification

The library layer for statements about whole sequences of calls. A machine performs a call
on its state and returns or panics; in both cases it goes on from the state that was left.
A specification says, in a state of its own, which outcomes a call may have and which state
comes next. The module names no particular program:

* `outcome` is what a computation returns with the state it leaves, with its rules of sequencing
  (`outcome_bind_ok`, `outcome_bind_error`) and for `reading`, `updating` and `deferring`;
* `outcomes` are the outcomes of a list of calls, and `outcomes_invariant` says what holds
  of the state at the end;
* `Simulates.outcomes` says that a machine all of whose calls are simulated has, for every
  list of calls, outcomes that the specification allows.
-/

namespace MelodiaStore

variable {κ ε σ τ α β : Type} {x : EStateM ε σ α} {s : σ} {f : α → EStateM ε σ β}
  {perform : κ → EStateM ε σ α} {s' : σ} {a : α} {e : ε} {calls : List κ} {R : σ → τ → Prop}
  {t : τ}

/-- What a computation returns or panics with, and the state it leaves. -/
def outcome (x : EStateM ε σ α) (s : σ) : Except ε α × σ :=
  match x.run s with
  | .ok a s' => (.ok a, s')
  | .error e s' => (.error e, s')

theorem outcome_of_ok (h : x.run s = .ok a s') : outcome x s = (.ok a, s') := by
  rw [outcome, h]

theorem outcome_zoom (view : σ → τ) (put : τ → σ → σ) (x : EStateM ε τ α) (s : σ) :
    outcome (zoom view put x) s = ((outcome x (view s)).1, put (outcome x (view s)).2 s) := by
  rw [outcome, outcome, run_zoom]
  cases x.run (view s) <;> rfl

/-- Run a computation on the part `view s` of a larger state, and wrap what it panics with. -/
def embed {ε' : Type} (wrap : ε → ε') (view : σ → τ) (put : τ → σ → σ) (x : EStateM ε τ α) :
    EStateM ε' σ α := fun s =>
  match x.run (view s) with
  | .ok a t => .ok a (put t s)
  | .error e t => .error (wrap e) (put t s)

theorem outcome_embed {ε' : Type} (wrap : ε → ε') (view : σ → τ) (put : τ → σ → σ)
    (x : EStateM ε τ α) (s : σ) :
    outcome (embed wrap view put x) s =
      ((outcome x (view s)).1.mapError wrap, put (outcome x (view s)).2 s) := by
  simp only [outcome, embed, EStateM.run]
  cases x (view s) <;> rfl

/-- A call that reads the state. -/
def reading (f : σ → Except ε α) : EStateM ε σ α := fun s =>
  match f s with
  | .ok a => .ok a s
  | .error e => .error e s

theorem outcome_reading (f : σ → Except ε α) (s : σ) : outcome (reading f) s = (f s, s) := by
  simp only [outcome, reading, EStateM.run]
  cases f s <;> rfl

theorem run_reading_eq_ok {f : σ → Except ε α} :
    (reading f).run s = .ok a s' ↔ f s = .ok a ∧ s' = s := by
  simp only [reading, EStateM.run]
  cases f s with
  | ok b =>
    constructor
    · intro h
      obtain ⟨rfl, rfl⟩ := EStateM.Result.ok.inj h
      exact ⟨rfl, rfl⟩
    · rintro ⟨h, rfl⟩
      rw [Except.ok.inj h]
  | error e => exact ⟨nofun, fun h => nomatch h.1⟩

/-- A call that updates the state, and leaves it as it is when the update fails. -/
def updating (f : σ → Except ε σ) (a : α) : EStateM ε σ α := fun s =>
  match f s with
  | .ok s' => .ok a s'
  | .error e => .error e s

theorem outcome_updating_of_ok {f : σ → Except ε σ} (h : f s = .ok s') :
    outcome (updating f a) s = (.ok a, s') := by
  simp only [outcome, updating, EStateM.run, h]

theorem outcome_updating_of_error {f : σ → Except ε σ} (h : f s = .error e) :
    outcome (updating f a) s = (.error e, s) := by
  simp only [outcome, updating, EStateM.run, h]

/-- A computation with a cleanup that is run when it returns and when it panics. -/
def deferring (cleanup : σ → σ) (x : EStateM ε σ α) : EStateM ε σ α := fun s =>
  match x.run s with
  | .ok a s' => .ok a (cleanup s')
  | .error e s' => .error e (cleanup s')

/-- The cleanup is always run. -/
theorem outcome_deferring (cleanup : σ → σ) (x : EStateM ε σ α) (s : σ) :
    outcome (deferring cleanup x) s = ((outcome x s).1, cleanup (outcome x s).2) := by
  simp only [outcome, deferring, EStateM.run]
  cases x s <;> rfl

theorem outcome_get (s : σ) : outcome (MonadState.get : EStateM ε σ σ) s = (.ok s, s) := rfl

theorem outcome_set (s s' : σ) : outcome (set s' : EStateM ε σ PUnit) s = (.ok ⟨⟩, s') := rfl

theorem outcome_modify (f : σ → σ) (s : σ) :
    outcome (modify f : EStateM ε σ PUnit) s = (.ok ⟨⟩, f s) := rfl

theorem outcome_ofExcept (x : Except ε α) (s : σ) :
    outcome (ofExcept x : EStateM ε σ α) s = (x, s) := by
  cases x <;> rfl

/-- A sequence whose first part returns. -/
theorem outcome_bind_ok (h : outcome x s = (.ok a, s')) :
    outcome (x >>= f) s = outcome (f a) s' := by
  unfold outcome at h ⊢
  rw [EStateM.run_bind]
  cases hx : x.run s with
  | ok b s₁ =>
    rw [hx] at h
    cases h
    rfl
  | error e s₁ =>
    rw [hx] at h
    cases h

/-- A sequence whose first part fails. -/
theorem outcome_bind_error (h : outcome x s = (.error e, s')) :
    outcome (x >>= f) s = (.error e, s') := by
  unfold outcome at h ⊢
  rw [EStateM.run_bind]
  cases hx : x.run s with
  | ok b s₁ =>
    rw [hx] at h
    cases h
  | error e s₁ =>
    rw [hx] at h
    cases h
    rfl

/-- What the parts of a computation can do to the state, its whole can do. -/
theorem snd_outcome_bind_rel {R : σ → σ → Prop} (htrans : ∀ {s s' s''}, R s s' → R s' s'' → R s s'')
    (hx : ∀ s, R s (outcome x s).2) (hf : ∀ a s, R s (outcome (f a) s).2) (s : σ) :
    R s (outcome (x >>= f) s).2 := by
  have hfirst := hx s
  rcases hout : outcome x s with ⟨e | a, s'⟩
  · rw [hout] at hfirst
    rw [outcome_bind_error hout]
    exact hfirst
  · rw [hout] at hfirst
    rw [outcome_bind_ok hout]
    exact htrans hfirst (hf a s')

/-- A computation that leaves the state as it is, whether it returns or panics. -/
def ReadOnly (x : EStateM ε σ α) : Prop := ∀ s, (outcome x s).2 = s

theorem readOnly_ofExcept (x : Except ε α) : ReadOnly (ofExcept x : EStateM ε σ α) := by
  intro s
  cases x <;> rfl

theorem readOnly_pure (a : α) : ReadOnly (pure a : EStateM ε σ α) := fun _ => rfl

theorem readOnly_get : ReadOnly (MonadState.get : EStateM ε σ σ) := fun _ => rfl

/-- What comes after a computation leaves the state it left. -/
theorem snd_outcome_bind (hf : ∀ a, ReadOnly (f a)) (s : σ) :
    (outcome (x >>= f) s).2 = (outcome x s).2 := by
  unfold outcome
  rw [EStateM.run_bind]
  cases x.run s with
  | ok a s' => exact hf a s'
  | error e s' => rfl

/-- A computation followed by a function of its answer. -/
theorem outcome_bind_pure (x : EStateM ε σ α) (f : α → β) (s : σ) :
    outcome (x >>= fun a => pure (f a)) s = ((outcome x s).1.map f, (outcome x s).2) := by
  unfold outcome
  rw [EStateM.run_bind]
  cases x.run s <;> rfl

theorem ReadOnly.bind (hx : ReadOnly x) (hf : ∀ a, ReadOnly (f a)) : ReadOnly (x >>= f) :=
  fun s => (snd_outcome_bind hf s).trans (hx s)

/-- The outcomes of a list of calls, and the state at the end. -/
def outcomes (perform : κ → EStateM ε σ α) : List κ → σ → List (Except ε α) × σ
  | [], s => ([], s)
  | call :: calls, s =>
    let first := outcome (perform call) s
    let rest := outcomes perform calls first.2
    (first.1 :: rest.1, rest.2)

/-- The state after one more call. -/
theorem snd_outcomes_concat (perform : κ → EStateM ε σ α) (calls : List κ) (call : κ) (s : σ) :
    (outcomes perform (calls ++ [call]) s).2 =
      (outcome (perform call) (outcomes perform calls s).2).2 := by
  induction calls generalizing s with
  | nil => rfl
  | cons c calls ih => exact ih _

/-- The outcome of a call in the middle is its outcome in the state the calls before it left. -/
theorem getElem?_outcomes (perform : κ → EStateM ε σ α) (calls : List κ) (s : σ) (i : ℕ) :
    (outcomes perform calls s).1[i]? = calls[i]?.map fun call =>
      (outcome (perform call) (outcomes perform (calls.take i) s).2).1 := by
  induction calls generalizing s i with
  | nil => rfl
  | cons call calls ih =>
    cases i with
    | zero => rfl
    | succ i => exact ih _ i

/-- **The invariant rule**: what every call keeps holds at the end. -/
theorem outcomes_invariant {I : σ → Prop}
    (hstep : ∀ call ∈ calls, ∀ s, I s → I (outcome (perform call) s).2) (h : I s) :
    I (outcomes perform calls s).2 := by
  induction calls generalizing s with
  | nil => exact h
  | cons call calls ih =>
    exact ih (fun c hc => hstep c (List.mem_cons_of_mem call hc))
      (hstep call List.mem_cons_self s h)

/-- The outcomes a specification allows for a list of calls, and the state at the end. -/
inductive Allowed (spec : κ → τ → Except ε α → τ → Prop) :
    List κ → τ → List (Except ε α) → τ → Prop
  | nil {t : τ} : Allowed spec [] t [] t
  | cons {call : κ} {calls : List κ} {t t' t'' : τ} {r : Except ε α} {rs : List (Except ε α)}
      (first : spec call t r t') (rest : Allowed spec calls t' rs t'') :
      Allowed spec (call :: calls) t (r :: rs) t''

/-- From related states, each of the calls has an outcome that the specification allows, and
leaves related states. -/
def Simulates (R : σ → τ → Prop) (perform : κ → EStateM ε σ α)
    (spec : κ → τ → Except ε α → τ → Prop) (P : κ → Prop) : Prop :=
  ∀ call s t, P call → R s t →
    ∃ t', spec call t (outcome (perform call) s).1 t' ∧ R (outcome (perform call) s).2 t'

/-- **The simulation rule.** -/
theorem Simulates.outcomes {spec : κ → τ → Except ε α → τ → Prop} {P : κ → Prop}
    (h : Simulates R perform spec P) (hcalls : ∀ call ∈ calls, P call) (hR : R s t) :
    ∃ t', Allowed spec calls t (outcomes perform calls s).1 t' ∧
      R (outcomes perform calls s).2 t' := by
  induction calls generalizing s t with
  | nil => exact ⟨t, .nil, hR⟩
  | cons call calls ih =>
    obtain ⟨t₁, hfirst, hR₁⟩ := h call s t (hcalls call List.mem_cons_self) hR
    obtain ⟨t', hrest, hR'⟩ := ih (fun c hc => hcalls c (List.mem_cons_of_mem call hc)) hR₁
    exact ⟨t', .cons hfirst hrest, hR'⟩

/-- Two computations return or panic with the same, and leave related states. -/
def SameOutcome (R : σ → τ → Prop) (x : EStateM ε σ α) (s : σ) (y : EStateM ε τ α) (t : τ) : Prop :=
  (outcome x s).1 = (outcome y t).1 ∧ R (outcome x s).2 (outcome y t).2

/-- A machine that answers every call as another one, from related states, has its outcomes. -/
theorem outcomes_eq {perform' : κ → EStateM ε τ α}
    (h : ∀ call s t, R s t → SameOutcome R (perform call) s (perform' call) t) (calls : List κ)
    (hR : R s t) :
    (outcomes perform calls s).1 = (outcomes perform' calls t).1 ∧
      R (outcomes perform calls s).2 (outcomes perform' calls t).2 := by
  induction calls generalizing s t with
  | nil => exact ⟨rfl, hR⟩
  | cons call calls ih =>
    obtain ⟨hfirst, hR₁⟩ := h call s t hR
    obtain ⟨hrest, hR'⟩ := ih hR₁
    exact ⟨congrArg₂ List.cons hfirst hrest, hR'⟩

end MelodiaStore
