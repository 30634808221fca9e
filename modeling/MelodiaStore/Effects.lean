import Mathlib.Data.List.AList
import Mathlib.Data.List.Induction
import Mathlib.Data.Set.Insert

/-!
# Stateful Computations That May Panic

The library layer for sequential imperative code. A computation is an `EStateM ε σ α`:
it reads and writes a state `σ` and either returns a value or panics with an `ε`, and the
state reached so far is kept in both cases. This module collects the rules the
developments on top of it use, none of which mentions a particular program:

* the inversion rules of sequencing (`run_bind_eq_ok`), of a lifted `Except`
  (`run_ofExcept_eq_ok`) and of running on a part of the state (`run_zoom_eq_ok`);
* `Ensures`, the pre- and postconditions of computations that return;
* `Consults`, the specification of a computation that looks up keys one by one, with its
  rules of sequencing;
* `stateless` for a computation that needs no state, `endsIn` and `panicsIn` to test how a run
  ends;
* the rules for a loop over a list: `forM_ok_induction` carries an invariant indexed by
  the elements already processed, and `exists_forM_iff` says when a loop returns.

The second half is about key-value maps. A map is Mathlib's `AList`: a list of entries
with distinct keys, whose order stands for the order in which a traversal happens to
visit them; a `Traversal` is any other order. `ActsOn` says that a computation on a keyed
state touches one entry only, and `forM_actsOn` describes a loop of such computations over
distinct keys entry by entry; `exists_forM_actsOn_iff` says when it returns.
-/

namespace MelodiaStore

open List (forM_cons forM_nil map_cons mem_cons mem_cons_of_mem mem_cons_self)

variable {ε σ τ α β W : Type}

/-! ### Sequencing -/

variable {x : EStateM ε σ α} {s s' s'' : σ} {a : α} {f : α → EStateM ε σ PUnit} {l : List α} {b : β}
  {e : ε} {view : σ → τ} {put : τ → σ → σ} {p : α → EStateM ε σ Bool}

/-- A sequence returns exactly when both of its parts return. -/
theorem run_bind_eq_ok {f : α → EStateM ε σ β} :
    (x >>= f).run s = .ok b s'' ↔
      ∃ a s', x.run s = .ok a s' ∧ (f a).run s' = .ok b s'' := by
  rw [EStateM.run_bind]
  cases hx : x.run s with
  | ok a s' =>
    constructor
    · intro h
      exact ⟨a, s', rfl, h⟩
    · rintro ⟨a', t, h, hf⟩
      injection h with h₁ h₂
      subst h₁ h₂
      exact hf
  | error e s' =>
    constructor
    · intro h
      cases h
    · rintro ⟨a', t, h, -⟩
      cases h

/-- A computation that has returned can be run on in its result. -/
theorem run_bind_of_ok {f : α → EStateM ε σ β} (h : x.run s = .ok a s') :
    (x >>= f).run s = (f a).run s' := by
  rw [EStateM.run_bind, h]

/-- A sequence panics in its first part, or in its second one. -/
theorem run_bind_eq_error {f : α → EStateM ε σ β} :
    (x >>= f).run s = .error e s'' ↔
      x.run s = .error e s'' ∨ ∃ a s', x.run s = .ok a s' ∧ (f a).run s' = .error e s'' := by
  rw [EStateM.run_bind]
  cases hx : x.run s with
  | ok a s' =>
    constructor
    · intro h
      exact .inr ⟨a, s', rfl, h⟩
    · rintro (h | ⟨b, t, h, hf⟩)
      · cases h
      · obtain ⟨rfl, rfl⟩ := EStateM.Result.ok.inj h
        exact hf
  | error e' s' =>
    constructor
    · intro h
      obtain ⟨rfl, rfl⟩ := EStateM.Result.error.inj h
      exact .inl rfl
    · rintro (h | ⟨b, t, h, -⟩)
      · obtain ⟨rfl, rfl⟩ := EStateM.Result.error.inj h
        rfl
      · cases h

/-- The same of computations without a state. -/
theorem except_bind_eq_ok {x : Except ε α} {f : α → Except ε β} :
    (x >>= f) = .ok b ↔ ∃ a, x = .ok a ∧ f a = .ok b := by
  cases x <;> simp [bind, Except.bind]

/-- Run an `Except` as a computation that leaves the state alone. -/
def ofExcept : Except ε α → EStateM ε σ α
  | .ok a => pure a
  | .error e => throw e

@[simp] theorem run_ofExcept_ok (a : α) (s : σ) :
    (ofExcept (.ok a : Except ε α)).run s = .ok a s := rfl

@[simp] theorem run_ofExcept_error (e : ε) (s : σ) :
    (ofExcept (.error e : Except ε α)).run s = .error e s := rfl

theorem ofExcept_ok_bind (a : α) (f : α → EStateM ε σ β) :
    (ofExcept (.ok a : Except ε α) >>= f) = f a := rfl

theorem run_ofExcept_eq_ok {x : Except ε α} :
    (ofExcept x).run s = .ok a s' ↔ x = .ok a ∧ s' = s := by
  cases x with
  | ok b =>
    rw [run_ofExcept_ok, EStateM.Result.ok.injEq, Except.ok.injEq, eq_comm (a := s)]
  | error e =>
    rw [run_ofExcept_error]
    simp

/-- A lifted `Except` followed by a computation. -/
theorem run_ofExcept_bind_eq_ok {x : Except ε α} {f : α → EStateM ε σ β} :
    (ofExcept x >>= f).run s = .ok b s' ↔ ∃ a, x = .ok a ∧ (f a).run s = .ok b s' := by
  rw [run_bind_eq_ok]
  constructor
  · rintro ⟨a, t, hrun, hf⟩
    obtain ⟨hx, rfl⟩ := run_ofExcept_eq_ok.mp hrun
    exact ⟨a, hx, hf⟩
  · rintro ⟨a, hx, hf⟩
    exact ⟨a, s, run_ofExcept_eq_ok.mpr ⟨hx, rfl⟩, hf⟩

/-- Run a computation on the part `view s` of a larger state. The part is written back
whether the computation returns or panics. -/
def zoom (view : σ → τ) (put : τ → σ → σ) (x : EStateM ε τ α) : EStateM ε σ α := fun s =>
  match x.run (view s) with
  | .ok a t => .ok a (put t s)
  | .error e t => .error e (put t s)

/-- A zoom runs in a part of the state. -/
theorem run_zoom (view : σ → τ) (put : τ → σ → σ) (x : EStateM ε τ α) (s : σ) :
    (zoom view put x).run s =
      match x.run (view s) with
      | .ok a t => .ok a (put t s)
      | .error e t => .error e (put t s) := rfl

theorem run_zoom_eq_ok {x : EStateM ε τ α} :
    (zoom view put x).run s = .ok a s' ↔
      ∃ t, x.run (view s) = .ok a t ∧ s' = put t s := by
  simp only [zoom, EStateM.run]
  cases hx : x (view s) with
  | ok b t =>
    simp only [EStateM.Result.ok.injEq]
    constructor
    · rintro ⟨rfl, rfl⟩
      exact ⟨t, ⟨rfl, rfl⟩, rfl⟩
    · rintro ⟨t', ⟨rfl, rfl⟩, rfl⟩
      exact ⟨rfl, rfl⟩
  | error e t => simp

theorem run_zoom_eq_error {x : EStateM ε τ α} :
    (zoom view put x).run s = .error e s' ↔
      ∃ t, x.run (view s) = .error e t ∧ s' = put t s := by
  rw [run_zoom]
  cases hx : x.run (view s) with
  | ok b t => simp
  | error e' t =>
    simp only [EStateM.Result.error.injEq]
    constructor
    · rintro ⟨rfl, rfl⟩
      exact ⟨t, ⟨rfl, rfl⟩, rfl⟩
    · rintro ⟨t', ⟨rfl, rfl⟩, rfl⟩
      exact ⟨rfl, rfl⟩

/-! ### Pre- and postconditions -/

section Ensures

variable {P : σ → Prop} {Q : α → σ → Prop} {R : β → σ → Prop}

/-- Started where `P` holds, the computation ends with `Q` whenever it returns. -/
def Ensures (P : σ → Prop) (x : EStateM ε σ α) (Q : α → σ → Prop) : Prop :=
  ∀ ⦃s a s'⦄, P s → x.run s = .ok a s' → Q a s'

theorem Ensures.pure {a : α} (h : ∀ s, P s → Q a s) :
    Ensures P (pure a : EStateM ε σ α) Q := by
  intro s b s' hs hrun
  cases hrun
  exact h s hs

theorem Ensures.throw (e : ε) : Ensures P (throw e : EStateM ε σ α) Q := by
  intro s a s' _ hrun
  cases hrun

/-- The rule for a sequence. -/
theorem Ensures.bind {f : α → EStateM ε σ β} (hx : Ensures P x Q) (hf : ∀ a, Ensures (Q a) (f a) R)
    : Ensures P (x >>= f) R := by
  intro s b s'' hs hrun
  obtain ⟨a, s', hrun₁, hrun₂⟩ := run_bind_eq_ok.mp hrun
  exact hf a (hx hs hrun₁) hrun₂

/-- The rule of consequence. -/
theorem Ensures.imp {Q' : α → σ → Prop} (hx : Ensures P x Q) (h : ∀ a s, Q a s → Q' a s) :
    Ensures P x Q' :=
  fun _ a s' hs hrun => h a s' (hx hs hrun)

theorem Ensures.ofExcept_bind {x : Except ε α} {f : α → EStateM ε σ β}
    (hf : ∀ a, x = .ok a → Ensures P (f a) R) : Ensures P (ofExcept x >>= f) R := by
  intro s b s' hs hrun
  obtain ⟨a, hx, hrun⟩ := run_ofExcept_bind_eq_ok.mp hrun
  exact hf a hx hs hrun

end Ensures

/-! ### Computations that look keys up -/

section Consults

variable {κ : Type} {I : Set κ → σ → Prop} {bad : κ → Prop} {R T T' : Set κ} {s : σ} {a b : α}
  {x : EStateM ε σ α} {f : α → EStateM ε σ β}

/-- In a state where the keys `R` have been looked up, the computation looks up the keys `T`
and returns `a`, unless one of them is `bad`, where it may panic. `I R` is the invariant of
the states in which `R` has been looked up. -/
def Consults (I : Set κ → σ → Prop) (bad : κ → Prop) (x : EStateM ε σ α) (s : σ) (R T : Set κ)
    (a : α) : Prop :=
  match x.run s with
  | .ok b s' => b = a ∧ I (R ∪ T) s'
  | .error _ _ => ∃ k ∈ T, bad k

theorem Consults.pure (h : I R s) : Consults I bad (pure a : EStateM ε σ α) s R ∅ a :=
  ⟨rfl, by rwa [Set.union_empty]⟩

theorem Consults.of_ok (hx : x.run s = .ok a s') (h : I (R ∪ T) s') : Consults I bad x s R T a := by
  rw [Consults, hx]
  exact ⟨rfl, h⟩

theorem Consults.of_error {e : ε} (hx : x.run s = .error e s') (h : ∃ k ∈ T, bad k) :
    Consults I bad x s R T a := by
  rw [Consults, hx]
  exact h

/-- Equal sets and answers. -/
theorem Consults.congr (h : Consults I bad x s R T a) (hT : T = T') (hb : a = b) :
    Consults I bad x s R T' b :=
  hT ▸ hb ▸ h

/-- **Sequencing**: the second part goes on where the first one returned. -/
theorem Consults.bind {b : β} (hx : Consults I bad x s R T a)
    (hf : ∀ s', I (R ∪ T) s' → Consults I bad (f a) s' (R ∪ T) T' b) :
    Consults I bad (x >>= f) s R (T ∪ T') b := by
  unfold Consults at hx ⊢
  rw [EStateM.run_bind]
  cases hrun : x.run s with
  | ok a' s' =>
    rw [hrun] at hx
    obtain ⟨rfl, hI⟩ := hx
    have hrest := hf s' hI
    rw [Consults, Set.union_assoc] at hrest
    dsimp only
    cases hf' : (f a').run s' with
    | ok b' s'' =>
      rw [hf'] at hrest
      exact hrest
    | error e s'' =>
      rw [hf'] at hrest
      obtain ⟨k, hk, hbad⟩ := hrest
      exact ⟨k, .inr hk, hbad⟩
  | error e s' =>
    rw [hrun] at hx
    obtain ⟨k, hk, hbad⟩ := hx
    exact ⟨k, .inl hk, hbad⟩

/-- Sequencing when the second part looks up nothing. -/
theorem Consults.bind_left {b : β} (hx : Consults I bad x s R T a)
    (hf : ∀ s', I (R ∪ T) s' → Consults I bad (f a) s' (R ∪ T) ∅ b) :
    Consults I bad (x >>= f) s R T b :=
  (hx.bind hf).congr (Set.union_empty T) rfl

/-- Sequencing when the first part looks up nothing. -/
theorem Consults.bind_right {b : β} (hx : Consults I bad x s R ∅ a)
    (hf : ∀ s', I R s' → Consults I bad (f a) s' R T b) : Consults I bad (x >>= f) s R T b := by
  refine (hx.bind fun s' hI => ?_).congr (Set.empty_union T) rfl
  rw [Set.union_empty] at hI ⊢
  exact hf s' hI

/-- A computation that returns has returned the value and looked up the keys. -/
theorem Consults.of_run (h : Consults I bad x s R T a) (hx : x.run s = .ok b s') :
    b = a ∧ I (R ∪ T) s' := by
  rwa [Consults, hx] at h

/-- Without a bad key the computation returns. -/
theorem Consults.exists_run (h : Consults I bad x s R T a) (hT : ∀ k ∈ T, ¬ bad k) :
    ∃ s', x.run s = .ok a s' ∧ I (R ∪ T) s' := by
  unfold Consults at h
  cases hrun : x.run s with
  | ok b s' =>
    rw [hrun] at h
    obtain ⟨rfl, hI⟩ := h
    exact ⟨s', rfl, hI⟩
  | error e s' =>
    rw [hrun] at h
    obtain ⟨k, hk, hbad⟩ := h
    exact absurd hbad (hT k hk)

end Consults

/-! ### Computations without a state -/

/-- Run a computation that needs no state. -/
def stateless (x : EStateM ε Unit α) : Except ε α :=
  match x.run () with
  | .ok a _ => .ok a
  | .error e _ => .error e

/-- A computation whose lookups cannot fail returns. -/
theorem Consults.stateless_eq {κ : Type} {I : Set κ → Unit → Prop} {x : EStateM ε Unit α}
    {R T : Set κ} (h : Consults I (fun _ => False) x () R T a) : stateless x = .ok a := by
  obtain ⟨s, hrun, -⟩ := h.exists_run fun _ _ => id
  rw [stateless, hrun]

theorem stateless_bind_pure (x : EStateM ε Unit α) (f : α → β) :
    stateless (x >>= fun a => pure (f a)) = (stateless x).map f := by
  rw [stateless, stateless, EStateM.run_bind]
  cases x.run () <;> rfl

/-! ### Evaluating a run -/

/-- A run that was evaluated is there for what follows from it. -/
theorem and_of_run {A B : Prop} (h : A) (hB : A → B) : A ∧ B :=
  ⟨h, hB h⟩

/-- A test of what a computation returns and of the state in which it does. -/
def endsIn (x : EStateM ε σ α) (s : σ) (p : α → σ → Bool) : Bool :=
  match x.run s with
  | .ok a s' => p a s'
  | .error _ _ => false

theorem exists_of_endsIn {p : α → σ → Bool} (h : endsIn x s p = true) :
    ∃ a s', x.run s = .ok a s' ∧ p a s' = true := by
  unfold endsIn at h
  cases hx : x.run s with
  | ok a s' =>
    rw [hx] at h
    exact ⟨a, s', rfl, h⟩
  | error e s' =>
    rw [hx] at h
    cases h

/-- A run that passes a test exists, and has what follows from it. -/
theorem exists_run_of_endsIn {x : EStateM ε σ PUnit} {p : σ → Bool} {Q : σ → Prop}
    (h : endsIn x s (fun _ s' => p s') = true)
    (hQ : ∀ s', x.run s = .ok ⟨⟩ s' → p s' = true → Q s') : ∃ s', x.run s = .ok ⟨⟩ s' ∧ Q s' := by
  obtain ⟨⟨⟩, s', hrun, hp⟩ := exists_of_endsIn h
  exact ⟨s', hrun, hQ s' hrun hp⟩

/-- A test of what a computation panics with and of the state in which it does. -/
def panicsIn (x : EStateM ε σ α) (s : σ) (p : ε → σ → Bool) : Bool :=
  match x.run s with
  | .ok _ _ => false
  | .error e s' => p e s'

theorem exists_of_panicsIn {p : ε → σ → Bool} (h : panicsIn x s p = true) :
    ∃ e s', x.run s = .error e s' ∧ p e s' = true := by
  unfold panicsIn at h
  cases hx : x.run s with
  | ok a s' =>
    rw [hx] at h
    cases h
  | error e s' =>
    rw [hx] at h
    exact ⟨e, s', rfl, h⟩

/-! ### Loops -/

/-- **The loop rule.** An invariant indexed by the elements processed so far, which every
round carries on, holds for the whole list when the loop has returned. -/
theorem forM_ok_induction (P : List α → σ → Prop) (h₀ : P [] s)
    (hstep : ∀ pre a t t', a ∈ l → P pre t → (f a).run t = .ok ⟨⟩ t' → P (pre ++ [a]) t')
    (h : (forM l f).run s = .ok ⟨⟩ s') : P l s' := by
  -- generalise over the processed prefix: the loop runs on `l` with `pre` behind it
  suffices H : ∀ (l pre : List α) (s s' : σ),
      (∀ pre a t t', a ∈ l → P pre t → (f a).run t = .ok ⟨⟩ t' → P (pre ++ [a]) t') →
      P pre s → (forM l f).run s = .ok ⟨⟩ s' → P (pre ++ l) s' by
    simpa using H l [] s s' hstep h₀ h
  intro l
  induction l with
  | nil =>
    intro pre s s' _ hP h
    rw [forM_nil, EStateM.run_pure] at h
    injection h with _ hs
    subst hs
    simpa using hP
  | cons a l ih =>
    intro pre s s' hstep hP h
    rw [forM_cons, run_bind_eq_ok] at h
    obtain ⟨⟨⟩, t, ha, hl⟩ := h
    have hPt : P (pre ++ [a]) t := hstep pre a s t mem_cons_self hP ha
    have := ih (pre ++ [a]) t s' (fun p b u u' hb => hstep p b u u' (mem_cons_of_mem a hb))
      hPt hl
    simpa using this

/-- A loop over one more element is the loop followed by one more round. -/
theorem forM_append_singleton_eq_ok : (forM (l ++ [a]) f).run s = .ok ⟨⟩ s' ↔
      ∃ t, (forM l f).run s = .ok ⟨⟩ t ∧ (f a).run t = .ok ⟨⟩ s' := by
  induction l generalizing s with
  | nil =>
    simp only [List.nil_append, forM_cons, forM_nil, run_bind_eq_ok,
      EStateM.run_pure]
    constructor
    · rintro ⟨⟨⟩, t, ha, ht⟩
      obtain ⟨-, rfl⟩ := EStateM.Result.ok.inj ht
      exact ⟨s, rfl, ha⟩
    · rintro ⟨t, ht, ha⟩
      obtain ⟨-, rfl⟩ := EStateM.Result.ok.inj ht
      exact ⟨⟨⟩, s', ha, rfl⟩
  | cons b l ih =>
    simp only [List.cons_append, forM_cons, run_bind_eq_ok, ih]
    constructor
    · rintro ⟨⟨⟩, u, hb, t, hl, ha⟩
      exact ⟨t, ⟨⟨⟩, u, hb, hl⟩, ha⟩
    · rintro ⟨t, ⟨⟨⟩, u, hb, hl⟩, ha⟩
      exact ⟨⟨⟩, u, hb, t, hl, ha⟩

/-- **Where a loop panics**: some rounds return, and the next one panics. -/
theorem forM_eq_error_iff :
    (forM l f).run s = .error e s' ↔ ∃ pre a post t, l = pre ++ a :: post ∧
      (forM pre f).run s = .ok ⟨⟩ t ∧ (f a).run t = .error e s' := by
  induction l generalizing s with
  | nil =>
    constructor
    · intro h
      cases h
    · rintro ⟨pre, a, post, t, hl, -⟩
      simp at hl
  | cons b l ih =>
    rw [forM_cons, run_bind_eq_error]
    constructor
    · rintro (h | ⟨⟨⟩, t, hb, h⟩)
      · exact ⟨[], b, l, s, rfl, rfl, h⟩
      · obtain ⟨pre, a, post, u, rfl, hpre, ha⟩ := ih.mp h
        refine ⟨b :: pre, a, post, u, rfl, ?_, ha⟩
        rw [forM_cons, run_bind_of_ok hb]
        exact hpre
    · rintro ⟨pre, a, post, t, hl, hpre, ha⟩
      cases pre with
      | nil =>
        obtain ⟨rfl, rfl⟩ := List.cons.inj hl
        obtain ⟨-, rfl⟩ := EStateM.Result.ok.inj hpre
        exact .inl ha
      | cons c pre =>
        obtain ⟨rfl, rfl⟩ := List.cons.inj hl
        rw [forM_cons, run_bind_eq_ok] at hpre
        obtain ⟨⟨⟩, u, hb, hpre⟩ := hpre
        exact .inr ⟨⟨⟩, u, hb, ih.mpr ⟨pre, a, post, t, rfl, hpre, ha⟩⟩

/-- **The guarded run rule.** An invariant that is carried on by every step that meets a
condition holds after each run whose steps all meet it. -/
theorem forM_ok_of_guarded (I : List α → σ → Prop) (C : α → σ → Prop) (h₀ : I [] s)
    (hstep : ∀ pre a t t', a ∈ l → I pre t → C a t → (f a).run t = .ok ⟨⟩ t' → I (pre ++ [a]) t')
    (hguard : ∀ pre a t, pre ++ [a] <+: l → (forM pre f).run s = .ok ⟨⟩ t → C a t)
    (h : (forM l f).run s = .ok ⟨⟩ s') : I l s' := by
  induction l using List.reverseRecOn generalizing s' with
  | nil =>
    obtain ⟨-, rfl⟩ := EStateM.Result.ok.inj h
    exact h₀
  | append_singleton l a ih =>
    obtain ⟨t, hl, ha⟩ := forM_append_singleton_eq_ok.mp h
    have ht : I l t := by
      refine ih (fun pre b u u' hb => hstep pre b u u' (List.mem_append_left [a] hb)) ?_ hl
      intro pre b u hpre
      exact hguard pre b u (hpre.trans (List.prefix_append l [a]))
    exact hstep l a t s' (by simp) ht (hguard l a t List.prefix_rfl hl) ha

/-- **Exactness of a guard.** If moreover the condition can be read off a property of the
state after the step, then the property holds in all states of a run exactly when all its
steps meet the condition. -/
theorem forM_forall_prefix_iff (I P : List α → σ → Prop) (C : α → σ → Prop) (h₀ : I [] s)
    (hstep : ∀ pre a t t', a ∈ l → I pre t → C a t → (f a).run t = .ok ⟨⟩ t' → I (pre ++ [a]) t')
    (hprop : ∀ pre t, I pre t → P pre t)
    (hback : ∀ pre a t t', a ∈ l → I pre t → (f a).run t = .ok ⟨⟩ t' → P (pre ++ [a]) t' → C a t)
    (h : (forM l f).run s = .ok ⟨⟩ s') :
    (∀ pre t, pre <+: l → (forM pre f).run s = .ok ⟨⟩ t → P pre t) ↔
      ∀ pre a t, pre ++ [a] <+: l → (forM pre f).run s = .ok ⟨⟩ t → C a t := by
  constructor
  · intro hall
    induction l using List.reverseRecOn generalizing s' with
    | nil =>
      intro pre a t hpre
      simp at hpre
    | append_singleton l b ih =>
      obtain ⟨u, hl, hb⟩ := forM_append_singleton_eq_ok.mp h
      have hmem : ∀ {a}, a ∈ l → a ∈ l ++ [b] := fun ha => List.mem_append_left [b] ha
      have hC := ih (fun pre a t t' ha => hstep pre a t t' (hmem ha))
        (fun pre a t t' ha => hback pre a t t' (hmem ha)) hl
        (fun pre t hpre => hall pre t (hpre.trans (List.prefix_append l [b])))
      intro pre a t hpre ht
      rcases List.prefix_concat_iff.mp hpre with heq | hpre
      · -- the last step: all earlier ones meet the condition
        obtain ⟨rfl, hab⟩ := List.append_inj' heq rfl
        obtain rfl : a = b := by simpa using hab
        obtain ⟨-, rfl⟩ := EStateM.Result.ok.inj (ht.symm.trans hl)
        have hI : I pre t := forM_ok_of_guarded I C h₀
          (fun p c u u' hc => hstep p c u u' (hmem hc)) hC ht
        exact hback pre a t s' (by simp) hI hb (hall _ s' List.prefix_rfl h)
      · exact hC pre a t hpre ht
  · intro hC pre t hpre ht
    refine hprop pre t (forM_ok_of_guarded I C h₀ (fun p a u u' ha => ?_) ?_ ht)
    · exact hstep p a u u' (hpre.subset ha)
    · intro p a u hp
      exact hC p a u (hp.trans hpre)

/-- **The progress rule.** If, wherever an invariant of the run holds, a step returns exactly when
it meets a condition on the steps before it, then a run returns exactly when all its steps meet
the condition. -/
theorem exists_forM_iff (I : List α → σ → Prop) (C : List α → α → Prop) (h₀ : I [] s)
    (hreturns : ∀ pre a t, a ∈ l → I pre t → ((∃ t', (f a).run t = .ok ⟨⟩ t') ↔ C pre a))
    (hstep : ∀ pre a t t', a ∈ l → I pre t → (f a).run t = .ok ⟨⟩ t' → I (pre ++ [a]) t') :
    (∃ s', (forM l f).run s = .ok ⟨⟩ s') ↔ ∀ pre a, pre ++ [a] <+: l → C pre a := by
  induction l using List.reverseRecOn with
  | nil => exact ⟨fun _ pre a hpre => by simp at hpre, fun _ => ⟨s, rfl⟩⟩
  | append_singleton l b ih =>
    have hmem : ∀ {a}, a ∈ l → a ∈ l ++ [b] := fun ha => List.mem_append_left [b] ha
    have hrest := ih (fun pre a t ha => hreturns pre a t (hmem ha))
      fun pre a t t' ha => hstep pre a t t' (hmem ha)
    have hI : ∀ t, (forM l f).run s = .ok ⟨⟩ t → I l t := fun t ht =>
      forM_ok_induction I h₀ (fun pre a t t' ha => hstep pre a t t' (hmem ha)) ht
    constructor
    · rintro ⟨s', h⟩ pre a hpre
      obtain ⟨t, hl, hb⟩ := forM_append_singleton_eq_ok.mp h
      rcases List.prefix_concat_iff.mp hpre with heq | hpre
      · obtain ⟨rfl, hab⟩ := List.append_inj' heq rfl
        obtain rfl : a = b := by simpa using hab
        exact (hreturns pre a t (by simp) (hI t hl)).mp ⟨s', hb⟩
      · exact hrest.mp ⟨t, hl⟩ pre a hpre
    · intro hC
      obtain ⟨t, hl⟩ := hrest.mpr fun pre a hpre =>
        hC pre a (hpre.trans (List.prefix_append l [b]))
      obtain ⟨s', hb⟩ := (hreturns l b t (by simp) (hI t hl)).mpr (hC l b List.prefix_rfl)
      exact ⟨s', forM_append_singleton_eq_ok.mpr ⟨t, hl, hb⟩⟩

/-- Nested loops are one loop over all elements. -/
theorem forM_flatMap {β : Type} (g : β → List α) (f : α → EStateM ε σ PUnit) (l : List β) :
    (forM (l.flatMap g) f : EStateM ε σ PUnit) = forM l fun b => forM (g b) f := by
  induction l with
  | nil => rfl
  | cons b l ih => rw [List.flatMap_cons, List.forM_append, ih, forM_cons]

/-! ### Scans that stop at the first failure -/

/-- A scan whose rounds all pass and change nothing passes. -/
theorem run_allM_of_forall (h : ∀ a ∈ l, (p a).run s = .ok true s) :
    (l.allM p).run s = .ok true s := by
  induction l with
  | nil => rfl
  | cons a l ih =>
    rw [List.allM, run_bind_of_ok (h a mem_cons_self)]
    exact ih fun b hb => h b (mem_cons_of_mem a hb)

/-- The first round that fails or panics is the last one. -/
theorem run_allM_append_cons {pre post : List α} (hpre : ∀ b ∈ pre, (p b).run s = .ok true s)
    (ha : ∀ s', (p a).run s ≠ .ok true s') : ((pre ++ a :: post).allM p).run s = (p a).run s := by
  induction pre with
  | nil =>
    rw [List.nil_append, List.allM, EStateM.run_bind]
    cases hrun : (p a).run s with
    | error e s' => rfl
    | ok b s' =>
      cases b with
      | false => rfl
      | true => exact absurd hrun (ha s')
  | cons b pre ih =>
    rw [List.cons_append, List.allM, run_bind_of_ok (hpre b mem_cons_self)]
    exact ih fun c hc => hpre c (mem_cons_of_mem b hc)

/-- A property holds of all elements of a list, or there is a first one without it. -/
theorem forall_or_exists_first (P : α → Prop) (l : List α) :
    (∀ a ∈ l, P a) ∨ ∃ pre a post, l = pre ++ a :: post ∧ (∀ b ∈ pre, P b) ∧ ¬ P a := by
  induction l with
  | nil => exact .inl (List.forall_mem_nil P)
  | cons a l ih =>
    by_cases ha : P a
    · rcases ih with h | ⟨pre, b, post, rfl, hpre, hb⟩
      · exact .inl (List.forall_mem_cons.mpr ⟨ha, h⟩)
      · exact .inr ⟨a :: pre, b, post, rfl, List.forall_mem_cons.mpr ⟨ha, hpre⟩, hb⟩
    · exact .inr ⟨[], a, l, rfl, List.forall_mem_nil P, ha⟩

/-! ### Maps -/

variable {K V : Type} [DecidableEq K]

/-- A key-value map whose traversals visit the entries in an unspecified order. -/
abbrev GoMap (K V : Type) := AList fun _ : K => V

/-- Looking up an inserted key, with the two cases in one equation. -/
theorem lookup_insert_ite (m : GoMap K V) (k k' : K) (v : V) :
    (m.insert k v).lookup k' = if k' = k then some v else m.lookup k' := by
  split
  · next h => rw [h, AList.lookup_insert]
  · next h => exact AList.lookup_insert_ne h

/-- Looking up after a key was erased, with the two cases in one equation. -/
theorem lookup_erase_ite (m : GoMap K V) (k k' : K) :
    (m.erase k).lookup k' = if k' = k then none else m.lookup k' := by
  split
  · next h => rw [h, AList.lookup_erase]
  · next h => exact AList.lookup_erase_ne h

variable {m : GoMap K V}

/-- A key is present exactly when a lookup finds something. -/
theorem mem_iff_exists_lookup {k : K} : k ∈ m ↔ ∃ v, m.lookup k = some v := by
  rw [← AList.lookup_isSome, Option.isSome_iff_exists]

/-- The entries of a map are its lookups. -/
theorem mem_entries_iff {e : (_ : K) × V} : e ∈ m.entries ↔ m.lookup e.1 = some e.2 := by
  rw [← Option.mem_def, AList.mem_lookup_iff]

/-- A map whose values are replaced, each by what `f` makes of it. -/
def mapValues {W : Type} (f : K → V → W) (m : GoMap K V) : GoMap K W where
  entries := m.entries.map fun e => ⟨e.1, f e.1 e.2⟩
  nodupKeys := by
    rw [List.NodupKeys, List.keys, List.map_map]
    exact m.nodupKeys

/-- What is found in a mapped map. -/
theorem lookup_mapValues (f : K → V → W) (m : GoMap K V) (k : K) :
    (mapValues f m).lookup k = (m.lookup k).map (f k) := by
  have hmem : ∀ w, (mapValues f m).lookup k = some w ↔ (m.lookup k).map (f k) = some w := by
    intro w
    have hentry : (⟨k, w⟩ : (_ : K) × W) ∈ (mapValues f m).entries ↔
        (m.lookup k).map (f k) = some w := by
      rw [mapValues, List.mem_map, Option.map_eq_some_iff]
      constructor
      · rintro ⟨e, he, heq⟩
        obtain ⟨rfl, hw⟩ := Sigma.mk.inj heq
        exact ⟨e.2, mem_entries_iff.mp he, eq_of_heq hw⟩
      · rintro ⟨v, hv, rfl⟩
        exact ⟨⟨k, v⟩, mem_entries_iff.mpr hv, rfl⟩
    rw [← hentry, mem_entries_iff]
  exact Option.ext hmem

/-- A map with one entry. -/
theorem lookup_singleton_iff {k k' : K} {v v' : V} :
    (AList.singleton k v : GoMap K V).lookup k' = some v' ↔ k' = k ∧ v' = v := by
  have hentry : (⟨k', v'⟩ : (_ : K) × V) ∈ (AList.singleton k v : GoMap K V).entries ↔
      k' = k ∧ v' = v :=
    List.mem_singleton.trans (by rw [Sigma.mk.injEq, heq_eq_eq])
  rw [← hentry, mem_entries_iff]

/-- What a function is, when another one agrees with it at one place. -/
theorem eq_ite_of_eq {f g : K → V} {key : K} (h : f key = g key) (k : K) :
    f k = if k = key then g k else f k := by
  split
  · next hk => rw [hk, h]
  · rfl

/-- **The rewriting loop rule.** When each round returns, keeps `I` and changes what is seen
at one key only, by a function that changes nothing when it is applied again, then the loop
returns and changes what is seen at these keys by that function. -/
theorem forM_rewrites (I : σ → Prop) (look : σ → K → V) (key : α → K) (g : K → V → V)
    (hg : ∀ k v, g k (g k v) = g k v) {f : α → EStateM ε σ PUnit} {s : σ}
    (hbody : ∀ a ∈ l, ∀ t, I t → ∃ t', (f a).run t = .ok ⟨⟩ t' ∧ I t' ∧
      ∀ k, look t' k = if k = key a then g k (look t k) else look t k) (h₀ : I s) :
    ∃ s', (forM l f).run s = .ok ⟨⟩ s' ∧ I s' ∧
      ∀ k, look s' k = if k ∈ l.map key then g k (look s k) else look s k := by
  induction l generalizing s with
  | nil => exact ⟨s, rfl, h₀, fun k => by simp⟩
  | cons a l ih =>
    obtain ⟨t, ha, ht, hlook⟩ := hbody a mem_cons_self s h₀
    obtain ⟨s', hl, hs', hlook'⟩ := ih (fun b hb => hbody b (mem_cons_of_mem a hb)) ht
    refine ⟨s', ?_, hs', fun k => ?_⟩
    · rw [forM_cons, run_bind_of_ok ha]
      exact hl
    · rw [hlook', hlook, map_cons]
      by_cases hk : k = key a
      · simp only [hk, if_true, mem_cons, true_or, hg, ite_self]
      · simp only [hk, if_false, mem_cons, false_or]

/-- `get` and `put` read and overwrite single entries of a keyed state. -/
structure Keyed (get : σ → K → Option V) (put : σ → K → V → σ) : Prop where
  get_put : ∀ s k v k', get (put s k v) k' = if k' = k then some v else get s k'

/-- A computation that touches the entry of `k` only: it replaces the entry by what `f`
makes of it, where an absent result leaves the state as it is. -/
def ActsOn (get : σ → K → Option V) (put : σ → K → V → σ) (k : K)
    (f : Option V → Except ε (Option V)) (x : EStateM ε σ PUnit) : Prop :=
  ∀ s s', x.run s = .ok ⟨⟩ s' ↔ ∃ r, f (get s k) = .ok r ∧ s' = r.elim s (put s k)

/-- `ActsOn` for maps. -/
abbrev ActsAt (k : K) (f : Option V → Except ε (Option V)) (x : EStateM ε (GoMap K V) PUnit) :
    Prop :=
  ActsOn (fun m k => m.lookup k) (fun m k v => m.insert k v) k f x

/-- A Go map is keyed. -/
theorem keyed_goMap : Keyed (fun (m : GoMap K V) k => m.lookup k) fun m k v => m.insert k v :=
  ⟨fun m k v k' => lookup_insert_ite m k k' v⟩

/-- Load an entry, storing `v` first when there is none; what was loaded is returned. -/
def loadOrStore (k : K) (v : V) : EStateM ε (GoMap K V) V := fun m =>
  match m.lookup k with
  | some old => .ok old m
  | none => .ok v (m.insert k v)

/-- What is loaded, and that a store under the same key forgets what was stored. -/
theorem run_loadOrStore (k : K) (v : V) (m : GoMap K V) :
    ∃ t, (loadOrStore k v : EStateM ε (GoMap K V) V).run m = .ok ((m.lookup k).getD v) t ∧
      ∀ new, t.insert k new = m.insert k new := by
  cases hm : m.lookup k with
  | some old =>
    exact ⟨m, by simp only [loadOrStore, EStateM.run, hm, Option.getD_some], fun _ => rfl⟩
  | none =>
    exact ⟨m.insert k v, by simp only [loadOrStore, EStateM.run, hm, Option.getD_none],
      fun _ => AList.insert_insert m⟩

/-- Loading or storing an entry and then storing what `g` makes of it is one act at the
key. -/
theorem actsAt_loadOrStore (k : K) (v : V) (g : V → Except ε V) :
    ActsAt k (fun old => (g (old.getD v)).map some) (do
      let old ← loadOrStore k v
      let new ← ofExcept (g old)
      modify fun m => m.insert k new) := by
  intro m m'
  obtain ⟨t, ht, hins⟩ := run_loadOrStore (ε := ε) k v m
  rw [run_bind_of_ok ht]
  cases hg : g ((m.lookup k).getD v) with
  | error e =>
    rw [EStateM.run_bind, run_ofExcept_error]
    simp [hg, Except.map]
  | ok new =>
    rw [run_bind_of_ok (run_ofExcept_ok new t), EStateM.run_modify, hins]
    simp only [hg, Except.map, Except.ok.injEq, exists_eq_left', Option.elim_some,
      EStateM.Result.ok.injEq, true_and]
    exact eq_comm

/-- Inserting pairs one after the other leaves the keys of no pair alone. -/
theorem lookup_foldl_insert_of_notMem {l : List (K × V)} {k : K} (hk : k ∉ l.map Prod.fst) :
    (l.foldl (fun m e => m.insert e.1 e.2) m).lookup k = m.lookup k := by
  induction l generalizing m with
  | nil => rfl
  | cons e l ih =>
    rw [map_cons, mem_cons, not_or] at hk
    rw [List.foldl_cons, ih hk.2, AList.lookup_insert_ne hk.1]

/-- The keys of the pairs get their values, when a value depends on its key only. -/
theorem lookup_foldl_insert_of_mem {l : List (K × V)} {g : K → V} {k : K}
    (hl : ∀ e ∈ l, e.2 = g e.1) (hk : k ∈ l.map Prod.fst) :
    (l.foldl (fun m e => m.insert e.1 e.2) m).lookup k = some (g k) := by
  induction l generalizing m with
  | nil => exact absurd hk List.not_mem_nil
  | cons e l ih =>
    rw [List.foldl_cons]
    by_cases hmem : k ∈ l.map Prod.fst
    · exact ih (fun e' he' => hl e' (mem_cons_of_mem e he')) hmem
    · obtain rfl : k = e.1 := (mem_cons.mp hk).resolve_right hmem
      rw [lookup_foldl_insert_of_notMem hmem, AList.lookup_insert, hl e mem_cons_self]

/-- Each pair is in the map then, when no key comes twice. -/
theorem lookup_foldl_insert_of_nodup {l : List (K × V)} {e : K × V}
    (hnodup : (l.map Prod.fst).Nodup) (he : e ∈ l) :
    (l.foldl (fun m e => m.insert e.1 e.2) m).lookup e.1 = some e.2 := by
  induction l generalizing m with
  | nil => exact absurd he List.not_mem_nil
  | cons e' l ih =>
    rw [map_cons, List.nodup_cons] at hnodup
    rw [List.foldl_cons]
    obtain rfl | he := mem_cons.mp he
    · rw [lookup_foldl_insert_of_notMem hnodup.1, AList.lookup_insert]
    · exact ih hnodup.2 he

/-- Erasing keys one after the other. -/
theorem mem_foldl_erase {l : List (K × W)} {k : K} :
    k ∈ l.foldl (fun m e => m.erase e.1) m ↔ k ∈ m ∧ k ∉ l.map Prod.fst := by
  induction l generalizing m with
  | nil => simp
  | cons e l ih =>
    rw [List.foldl_cons, ih, AList.mem_erase, map_cons, mem_cons, not_or]
    tauto

/-- An order in which a traversal of a map may visit its entries. -/
structure Traversal (K V : Type) where
  visit : GoMap K V → List ((_ : K) × V)
  perm : ∀ m, (visit m).Perm m.entries

/-- The order of the entries. -/
def Traversal.listed : Traversal K V := ⟨AList.entries, fun _ => .refl _⟩

/-- The other way round. -/
def Traversal.backwards (t : Traversal K V) : Traversal K V :=
  ⟨fun m => (t.visit m).reverse, fun m => (List.reverse_perm _).trans (t.perm m)⟩

omit [DecidableEq K] in
/-- Every entry is visited. -/
theorem Traversal.mem_visit (t : Traversal K V) {e : (_ : K) × V} : e ∈ t.visit m ↔ e ∈ m.entries :=
  (t.perm m).mem_iff

omit [DecidableEq K] in
/-- A traversal visits every key once. -/
theorem Traversal.nodup_visit (t : Traversal K V) (m : GoMap K V) :
    ((t.visit m).map Sigma.fst).Nodup :=
  ((t.perm m).map Sigma.fst).nodup_iff.mpr m.keys_nodup

section Keyed

variable {get : σ → K → Option V} {put : σ → K → V → σ}

/-- Replace the entry of `k` by what `f` makes of it. -/
def updateEntry (get : σ → K → Option V) (put : σ → K → V → σ) (k : K)
    (f : Option V → Except ε (Option V)) : EStateM ε σ PUnit := fun s =>
  match f (get s k) with
  | .error e => .error e s
  | .ok none => .ok ⟨⟩ s
  | .ok (some v) => .ok ⟨⟩ (put s k v)

omit [DecidableEq K] in
/-- An update acts at its key. -/
theorem actsOn_updateEntry (k : K) (f : Option V → Except ε (Option V)) :
    ActsOn get put k f (updateEntry get put k f) := by
  intro s s'
  simp only [updateEntry, EStateM.run]
  cases f (get s k) with
  | error e => simp
  | ok r => cases r <;> simp [eq_comm]

omit [DecidableEq K] in
theorem run_updateEntry_eq_error {k : K} {f : Option V → Except ε (Option V)} {s s' : σ} {e : ε} :
    (updateEntry get put k f).run s = .error e s' ↔ f (get s k) = .error e ∧ s' = s := by
  simp only [updateEntry, EStateM.run]
  cases f (get s k) with
  | error e' => simp [eq_comm]
  | ok r => cases r <;> simp

section

variable (hkeyed : Keyed get put) {body : α → EStateM ε σ PUnit}
include hkeyed

/-- What one such computation does, read through lookups. -/
theorem ActsOn.get_eq {k : K} {f : Option V → Except ε (Option V)} {x : EStateM ε σ PUnit}
    (hx : ActsOn get put k f x) (h : x.run s = .ok ⟨⟩ s') : ∃ r, f (get s k) = .ok r ∧
      ∀ k', get s' k' = if k' = k then r.or (get s k) else get s k' := by
  obtain ⟨r, hr, rfl⟩ := (hx s s').mp h
  refine ⟨r, hr, fun k' => ?_⟩
  cases r with
  | none => exact eq_ite_of_eq (f := get s) (g := fun _ => get s k) rfl k'
  | some v =>
    rw [Option.elim_some, hkeyed.get_put]
    rfl

section

variable (key : α → K) {f : α → Option V → Except ε (Option V)}
  (hbody : ∀ a ∈ l, ActsOn get put (key a) (f a) (body a)) (hl : (l.map key).Nodup)
include hbody hl

/-- **The entrywise loop rule.** A loop of computations that act on distinct keys changes
the entry of each of these keys by its own function, applied to the entry before the
loop, and no other entry. -/
theorem forM_actsOn (h : (forM l body).run s = .ok ⟨⟩ s') :
    (∀ a ∈ l, ∃ r, f a (get s (key a)) = .ok r ∧ get s' (key a) = r.or (get s (key a))) ∧
    (∀ k, k ∉ l.map key → get s' k = get s k) := by
  induction l generalizing s with
  | nil =>
    rw [forM_nil, EStateM.run_pure] at h
    injection h with _ hs
    subst hs
    exact ⟨fun a ha => absurd ha List.not_mem_nil, fun _ _ => rfl⟩
  | cons a l ih =>
    rw [forM_cons, run_bind_eq_ok] at h
    obtain ⟨⟨⟩, t, ha, hrest⟩ := h
    rw [map_cons, List.nodup_cons] at hl
    obtain ⟨r, hr, ht⟩ := (hbody a mem_cons_self).get_eq hkeyed ha
    obtain ⟨hin, hout⟩ := ih (fun b hb => hbody b (mem_cons_of_mem a hb)) hl.2 hrest
    refine ⟨fun b hb => ?_, fun k hk => ?_⟩
    · rcases mem_cons.mp hb with rfl | hb
      · -- the first key is not touched again
        refine ⟨r, hr, ?_⟩
        rw [hout (key b) hl.1, ht, if_pos rfl]
      · have hne : key b ≠ key a := by
          intro hba
          exact hl.1 (hba ▸ List.mem_map_of_mem hb)
        obtain ⟨q, hq, hs'⟩ := hin b hb
        rw [ht, if_neg hne] at hq hs'
        exact ⟨q, hq, hs'⟩
    · rw [map_cons, mem_cons, not_or] at hk
      rw [hout k hk.2, ht, if_neg hk.1]

/-- Such a loop returns when each of its rounds would return on the entries before the loop. -/
theorem exists_forM_actsOn_iff :
    (∃ s', (forM l body).run s = .ok ⟨⟩ s') ↔ ∀ a ∈ l, ∃ r, f a (get s (key a)) = .ok r := by
  constructor
  · rintro ⟨s', h⟩ a ha
    obtain ⟨r, hr, -⟩ := (forM_actsOn hkeyed key hbody hl h).1 a ha
    exact ⟨r, hr⟩
  · intro h
    induction l generalizing s with
    | nil => exact ⟨s, rfl⟩
    | cons a l ih =>
      rw [map_cons, List.nodup_cons] at hl
      have hact := hbody a mem_cons_self
      obtain ⟨r, hr⟩ := h a mem_cons_self
      have hrun := (hact s _).mpr ⟨r, hr, rfl⟩
      obtain ⟨r', _, hget⟩ := hact.get_eq hkeyed hrun
      -- the entries of the other keys are what they were
      obtain ⟨s', hrest⟩ := ih (s := r.elim s (put s (key a)))
        (fun b hb => hbody b (mem_cons_of_mem a hb)) hl.2 fun b hb => by
          have hne : key b ≠ key a := fun hba => hl.1 (hba ▸ List.mem_map_of_mem hb)
          rw [hget, if_neg hne]
          exact h b (mem_cons_of_mem a hb)
      refine ⟨s', ?_⟩
      rw [forM_cons, run_bind_of_ok hrun]
      exact hrest

end

/-- The same for keys that may come twice, when acting again on an entry changes nothing. -/
theorem forM_actsOn_of_idem {f : K → Option V → Except ε (Option V)} {body : K → EStateM ε σ PUnit}
    {l : List K} (hbody : ∀ k ∈ l, ActsOn get put k (f k) (body k))
    (hidem : ∀ k v r r', f k v = .ok r → f k (r.or v) = .ok r' → r'.or (r.or v) = r.or v)
    (h : (forM l body).run s = .ok ⟨⟩ s') :
    (∀ k ∈ l, ∃ r, f k (get s k) = .ok r ∧ get s' k = r.or (get s k)) ∧
    (∀ k, k ∉ l → get s' k = get s k) := by
  refine forM_ok_induction
    (fun pre t => (∀ k ∈ pre, ∃ r, f k (get s k) = .ok r ∧ get t k = r.or (get s k)) ∧
      ∀ k, k ∉ pre → get t k = get s k)
    ⟨fun k hk => absurd hk List.not_mem_nil, fun _ _ => rfl⟩ ?_ h
  rintro pre a t t' ha ⟨hin, hout⟩ hrun
  obtain ⟨r', hr', hget⟩ := (hbody a ha).get_eq hkeyed hrun
  refine ⟨fun k hk => ?_, fun k hk => ?_⟩
  · by_cases hka : k = a
    · subst hka
      rw [hget, if_pos rfl]
      by_cases hpre : k ∈ pre
      · obtain ⟨r, hr, ht⟩ := hin k hpre
        rw [ht] at hr' ⊢
        exact ⟨r, hr, hidem k _ r r' hr hr'⟩
      · rw [hout k hpre] at hr' ⊢
        exact ⟨r', hr', rfl⟩
    · obtain ⟨r, hr, ht⟩ := hin k ((List.mem_append.mp hk).resolve_right (by simpa using hka))
      rw [hget, if_neg hka]
      exact ⟨r, hr, ht⟩
  · rw [List.mem_append, List.mem_singleton, not_or] at hk
    rw [hget, if_neg hk.2, hout k hk.1]

end

end Keyed

section

variable (key : α → K) {f : α → Option V → Except ε (Option V)}
  {body : α → EStateM ε (GoMap K V) PUnit} (hbody : ∀ a ∈ l, ActsAt (key a) (f a) (body a))
  (hl : (l.map key).Nodup)
include hbody hl

/-- The entrywise loop rule for maps. -/
theorem forM_actsAt {m' : GoMap K V} (h : (forM l body).run m = .ok ⟨⟩ m') :
    (∀ a ∈ l, ∃ r, f a (m.lookup (key a)) = .ok r ∧
      m'.lookup (key a) = r.or (m.lookup (key a))) ∧
    (∀ k, k ∉ l.map key → m'.lookup k = m.lookup k) :=
  forM_actsOn keyed_goMap key hbody hl h

/-- When such a loop returns. -/
theorem exists_forM_actsAt_iff :
    (∃ m', (forM l body).run m = .ok ⟨⟩ m') ↔ ∀ a ∈ l, ∃ r, f a (m.lookup (key a)) = .ok r :=
  exists_forM_actsOn_iff keyed_goMap key hbody hl

end

end MelodiaStore
