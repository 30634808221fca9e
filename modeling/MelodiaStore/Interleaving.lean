import Mathlib.Algebra.BigOperators.Group.Finset.Piecewise
import Mathlib.Logic.Relation

/-!
# Interleavings

The library layer for concurrent code. A family of processes shares a state `σ`; each
process has a local state of its own, in `τ`, and moves by atomic steps, of which any
process may take the next one. The module names no particular program: a development gives
the steps of one process, and uses

* `Run.invariant` for what holds in every state of every interleaving,
* `sum_update` for what the processes hold together, when one of them moves, and
* `Run.solo` to build a particular interleaving out of stretches in which one process moves
  alone.
-/

namespace MelodiaStore

namespace Interleaving

variable {ι τ σ : Type} [DecidableEq ι] {step : ι → τ × σ → τ × σ → Prop} {locals : ι → τ}
  {shared : σ}

/-- One process takes a step from its local state and the shared one. -/
inductive Step (step : ι → τ × σ → τ × σ → Prop) : (ι → τ) × σ → (ι → τ) × σ → Prop
  | of (i : ι) {locals : ι → τ} {shared shared' : σ} {t : τ}
      (h : step i (locals i, shared) (t, shared')) :
      Step step (locals, shared) (Function.update locals i t, shared')

/-- The runs of all processes together. -/
abbrev Run (step : ι → τ × σ → τ × σ → Prop) : (ι → τ) × σ → (ι → τ) × σ → Prop :=
  Relation.ReflTransGen (Step step)

/-- **The invariant rule.** -/
theorem Run.invariant {I : (ι → τ) × σ → Prop} {c c' : (ι → τ) × σ}
    (hstep : ∀ c c', I c → Step step c c' → I c') (h : I c) (hrun : Run step c c') : I c' := by
  induction hrun with
  | refl => exact h
  | tail _ hlast ih => exact hstep _ _ ih hlast

/-- What the processes hold together, when the local state of one is replaced. -/
theorem sum_update [Fintype ι] (f : τ → ℕ) (locals : ι → τ) (i : ι) (t : τ) :
    ∑ j, f (Function.update locals i t j) + f (locals i) = ∑ j, f (locals j) + f t := by
  have hcomp : ∀ j, f (Function.update locals i t j) = Function.update (f ∘ locals) i (f t) j :=
    Function.apply_update (fun _ => f) locals i t
  rw [Finset.sum_congr rfl fun j _ => hcomp j, Finset.sum_update_of_mem (Finset.mem_univ i),
    Finset.sdiff_singleton_eq_erase, ← Finset.add_sum_erase _ (fun j => f (locals j))
      (Finset.mem_univ i)]
  simp only [Function.comp_apply]
  omega

/-- **The solo rule.** What a process can do alone it can do among the others, while they
wait. -/
theorem Run.solo (step : ι → τ × σ → τ × σ → Prop) (i : ι) {c : τ × σ}
    (h : Relation.ReflTransGen (step i) (locals i, shared) c) :
    Run step (locals, shared) (Function.update locals i c.1, c.2) := by
  induction h with
  | refl => rw [Function.update_eq_self]
  | @tail c c' _ hlast ih =>
    refine ih.tail ?_
    have hstep : step i (Function.update locals i c.1 i, c.2) (c'.1, c'.2) := by
      rw [Function.update_self]
      exact hlast
    have := Step.of i hstep
    rwa [Function.update_idem] at this

/-- The solo rule, for a process whose local state is known. -/
theorem Run.solo_of_eq (step : ι → τ × σ → τ × σ → Prop) {i : ι} {shared' : σ} {t t' : τ}
    (ht : locals i = t) (h : Relation.ReflTransGen (step i) (t, shared) (t', shared')) :
    Run step (locals, shared) (Function.update locals i t', shared') :=
  Run.solo step i (ht ▸ h)

end Interleaving

end MelodiaStore
