import Mathlib.Data.List.Sort
import Mathlib.Logic.Function.Iterate

/-!
# Leading Runs of a List

The library layer for a work list that forgets what has been completed in order. With a
successor function, the leading run of a list is its longest first part in which every element
is the successor of the one before it. `dropRun` drops the leading run but for its last element.
The module names no particular program:

* what is left is a last part of the list (`dropRun_suffix`) that does not begin with an element
  and its successor (`ne_of_dropRun_eq`);
* an element that is dropped leaves one of its iterated successors (`exists_mem_dropRun`), so an
  element whose successor is not in the list stays (`mem_dropRun`);
* in a sorted list an element that occurs twice is never dropped (`two_le_count_dropRun`).
-/

namespace MelodiaStore

variable {α : Type} [DecidableEq α] (next : α → α)

/-- The list from the last element of its leading run on. -/
def dropRun : List α → List α
  | a :: b :: l => if b = next a then dropRun (b :: l) else a :: b :: l
  | l => l

variable {next} {l : List α} {a : α}

/-- Only the front is dropped. -/
theorem dropRun_suffix (next : α → α) (l : List α) : dropRun next l <:+ l := by
  fun_induction dropRun next l with
  | case1 a l ih => exact ih.trans (List.suffix_cons a _)
  | case2 a b l h => exact List.suffix_rfl
  | case3 l h => exact List.suffix_rfl

theorem dropRun_ne_nil (hne : l ≠ []) : dropRun next l ≠ [] := by
  fun_induction dropRun next l with
  | case1 a l ih => exact ih (List.cons_ne_nil _ l)
  | case2 a b l h => exact hne
  | case3 l h => exact hne

/-- The leading run of what is left has one element. -/
theorem ne_of_dropRun_eq {l' : List α} {b : α} (h : dropRun next l = a :: b :: l') :
    b ≠ next a := by
  fun_induction dropRun next l with
  | case1 c l ih => exact ih h
  | case2 c d l hd =>
    obtain ⟨rfl, rfl, -⟩ : c = a ∧ d = b ∧ l = l' := by simpa using h
    exact hd
  | case3 l hl => exact absurd h (hl a b l')

/-- **The run rule**: for an element that was dropped, one of its iterated successors is left,
and the list had the ones before it. -/
theorem exists_mem_dropRun (next : α → α) (ha : a ∈ l) :
    ∃ k, next^[k] a ∈ dropRun next l ∧ ∀ j ≤ k, next^[j] a ∈ l := by
  fun_induction dropRun next l generalizing a with
  | case1 b l ih =>
    rcases List.mem_cons.mp ha with rfl | ha
    · obtain ⟨k, hk, hall⟩ := ih List.mem_cons_self
      refine ⟨k + 1, hk, ?_⟩
      intro j hj
      cases j with
      | zero => exact List.mem_cons_self
      | succ j => exact List.mem_cons_of_mem _ (hall j (Nat.le_of_succ_le_succ hj))
    · obtain ⟨k, hk, hall⟩ := ih ha
      exact ⟨k, hk, fun j hj => List.mem_cons_of_mem _ (hall j hj)⟩
  | case2 b c l hc | case3 l hl => exact ⟨0, ha, fun j hj => by rwa [Nat.le_zero.mp hj]⟩

/-- An element whose successor is not in the list stays. -/
theorem mem_dropRun (ha : a ∈ l) (hnext : next a ∉ l) : a ∈ dropRun next l := by
  obtain ⟨k, hk, hall⟩ := exists_mem_dropRun next ha
  cases k with
  | zero => exact hk
  | succ k => exact absurd (hall 1 (by omega)) hnext

/-- In a sorted list an element that occurs twice stays in the way. -/
theorem two_le_count_dropRun [LinearOrder α] (hsorted : l.Pairwise (· ≤ ·)) (hnext : next a ≠ a)
    (hcount : 2 ≤ l.count a) : 2 ≤ (dropRun next l).count a := by
  fun_induction dropRun next l with
  | case1 b l ih =>
    have hne : b ≠ a := by
      rintro rfl
      -- the second occurrence is between `b` and its successor
      have hmem : b ∈ next b :: l := by
        rw [← List.one_le_count_iff]
        rw [List.count_cons_self] at hcount
        omega
      have hle : b ≤ next b := List.rel_of_pairwise_cons hsorted List.mem_cons_self
      have hge : next b ≤ b := by
        rcases List.mem_cons.mp hmem with h | h
        · exact h ▸ le_rfl
        · exact List.rel_of_pairwise_cons hsorted.of_cons h
      exact hnext (le_antisymm hge hle)
    rw [List.count_cons_of_ne hne] at hcount
    exact ih hsorted.of_cons hcount
  | case2 b c l hc => exact hcount
  | case3 l hl => exact hcount

end MelodiaStore
